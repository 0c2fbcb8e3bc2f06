import Remap.Proofs.Attempts

/-!
Parsers move forward.  What remains after a parser is an end of its text, and so is the place at
which it fails; expressions and items take at least one character more when they succeed.  A promise
about success alone is enough for the second: what comes after a first part that takes a character
only has to stay behind it.
-/

namespace Remap

open Remap.Parser

variable {α β ε : Type}

/-- The ends of a text; what remains of a parse is one of them, and so is the place of a failure. -/
def SourceRegion.endsOf (source : List Char) : SourceRegion where
  Place text := text <:+ source
  Fault place _ := place <:+ source
  place_of_suffix htext hsuffix := hsuffix.trans htext
  missing hplace _ := hplace
  plain hplace _ := hplace
  collision hplace _ := hplace
  emptySegment hplace := hplace

/-- The ends of a text for what remains of a parse; it may fail anywhere. -/
def SourceRegion.aheadIn (source : List Char) : SourceRegion where
  Place text := text <:+ source
  Fault _ _ := True
  place_of_suffix htext hsuffix := hsuffix.trans htext
  missing _ _ := trivial
  plain _ _ := trivial
  collision _ _ := trivial
  emptySegment _ := trivial

namespace Parser

variable {p : Parser α} {text rest : List Char} {value : α}

/-- What remains after the parser, or the place at which it fails, is an end of its text. -/
def Suffixed (p : Parser α) : Prop :=
  ∀ text, match p text with
    | .ok (_, rest) => rest <:+ text
    | .error failure => failure.rest <:+ text

/-- What remains after the parser is an end of its text. -/
def Forward (p : Parser α) : Prop :=
  ∀ text value rest, p text = .ok (value, rest) → rest <:+ text

theorem suffixed_iff_admits : Suffixed p ↔ ∀ source, (SourceRegion.endsOf source).Admits p := by
  constructor
  · intro h source text htext
    have hends := h text
    cases hresult : p text with
    | ok result =>
        rw [hresult] at hends
        exact ⟨hends.trans htext, trivial⟩
    | error failure =>
        rw [hresult] at hends
        exact hends.trans htext
  · intro h text
    have hends := h text text (List.suffix_refl text)
    cases hresult : p text with
    | ok result =>
        rw [hresult] at hends
        exact hends.1
    | error failure =>
        rw [hresult] at hends
        exact hends

theorem forward_iff_admits : Forward p ↔ ∀ source, (SourceRegion.aheadIn source).Admits p := by
  constructor
  · intro h source text htext
    cases hresult : p text with
    | ok result => exact ⟨(h text result.1 result.2 hresult).trans htext, trivial⟩
    | error failure => exact trivial
  · intro h text value rest hok
    exact (h text).place (List.suffix_refl text) hok

theorem Suffixed.forward (h : Suffixed p) : Forward p := by
  intro text value rest hok
  have hends := h text
  rwa [hok] at hends

theorem Progresses.bind_forward (hp : Progresses p) {next : α → Parser β}
    (hnext : ∀ value, Forward (next value)) : Progresses (p >>= next) := by
  intro text value rest h
  obtain ⟨first, middle, hfirst, hrest⟩ := bind_eq_ok h
  exact Nat.lt_of_le_of_lt (hnext first _ _ _ hrest).length_le (hp _ _ _ hfirst)

theorem Forward.bind_progresses (hp : Forward p) {next : α → Parser β}
    (hnext : ∀ value, Progresses (next value)) : Progresses (p >>= next) := by
  intro text value rest h
  obtain ⟨first, middle, hfirst, hrest⟩ := bind_eq_ok h
  exact Nat.lt_of_lt_of_le (hnext first _ _ _ hrest) (hp _ _ _ hfirst).length_le

theorem pure_forward (value : α) : Forward (pure value) := by
  intro text other rest h
  cases h
  exact List.suffix_refl text

theorem here_forward : Forward here := by
  intro text value rest h
  cases h
  exact List.suffix_refl text

theorem abort_forward (place : List Char) (cause : Cause) :
    Forward (abort place cause : Parser α) := by
  intro text value rest h
  cases h

theorem Forward.bind (hp : Forward p) {next : α → Parser β}
    (hnext : ∀ value, Forward (next value)) : Forward (p >>= next) := by
  intro text value rest h
  obtain ⟨first, middle, hfirst, hrest⟩ := bind_eq_ok h
  exact (hnext first _ _ _ hrest).trans (hp _ _ _ hfirst)

theorem Forward.orElse {q : Parser α} (hp : Forward p) (hq : Forward q) : Forward (p <|> q) := by
  intro text value rest h
  rcases orElse_eq_ok h with hfirst | ⟨-, hsecond⟩
  · exact hp _ _ _ hfirst
  · exact hq _ _ _ hsecond

theorem Forward.commit (hp : Forward p) : Forward (commit p) :=
  forward_iff_admits.mpr fun source => (forward_iff_admits.mp hp source).commit

theorem Forward.expect (hp : Forward p) (label : String) : Forward (expect label p) :=
  forward_iff_admits.mpr fun source => (forward_iff_admits.mp hp source).expect label

theorem Forward.optional (hp : Forward p) : Forward (optional p) :=
  forward_iff_admits.mpr fun source =>
    (forward_iff_admits.mp hp source).optional.mono fun _ _ => trivial

theorem Forward.peek (hp : Forward p) : Forward (peek p) :=
  forward_iff_admits.mpr fun source => (forward_iff_admits.mp hp source).peek

theorem Forward.separatedUpTo {separator : Parser β} (hseparator : Forward separator)
    (hp : Forward p) (bound : Nat) : Forward (separatedUpTo separator p bound) :=
  forward_iff_admits.mpr fun source =>
    (forward_iff_admits.mp hseparator source).separatedUpTo (forward_iff_admits.mp hp source) bound

theorem Forward.separated {separator : Parser β} (hseparator : Forward separator)
    (hp : Forward p) : Forward (separated separator p) :=
  forward_iff_admits.mpr fun source =>
    (forward_iff_admits.mp hseparator source).separated (forward_iff_admits.mp hp source)

/-- The parsers of tokens, and naming what any such parser expected. -/
inductive Toolkit : {α : Type} → Parser α → Prop
  | keyword (word : String) : Toolkit (keyword word)
  | char (c : Char) : Toolkit (char c)
  | blanks1 : Toolkit blanks1
  | blanks : Toolkit blanks
  | blanksAndBreaks : Toolkit blanksAndBreaks
  | lineBreak : Toolkit lineBreak
  | blankLines : Toolkit blankLines
  | bareName : Toolkit bareName
  | quoted : Toolkit quoted
  | name : Toolkit name
  | expect {α : Type} {p : Parser α} (label : String) : Suffixed p → Toolkit (expect label p)

theorem Toolkit.suffixed (h : Toolkit p) : Suffixed p := by
  refine suffixed_iff_admits.mpr fun source => ?_
  cases h with
  | keyword word => exact Region.keyword_admitted _ word
  | char c => exact Region.char_admitted _ c
  | blanks1 => exact Region.token_admitted _ .blanks isSpaceOrTab
  | blanks => exact Region.run_admitted _ isSpaceOrTab
  | blanksAndBreaks => exact Region.run_admitted _ isSpaceTabOrBreak
  | lineBreak => exact Region.lineBreak_admitted _
  | blankLines => exact Region.blankLines_admitted _
  | bareName => exact (Region.token_admitted _ .name isBareNameChar).bind fun _ _ => .pure trivial
  | quoted => exact Region.quoted_admitted _
  | name => exact Region.name_admitted _
  | expect label hp => exact (suffixed_iff_admits.mp hp source).expect label

theorem Toolkit.forward (h : Toolkit p) : Forward p :=
  h.suffixed.forward

theorem quoted_progresses : Progresses quoted := by
  intro text value rest h
  obtain ⟨written, rfl, -⟩ := quoted_eq_ok h
  simp only [List.length_cons, List.length_append]
  omega

theorem name_progresses : Progresses name :=
  quoted_progresses.orElse ((token_progresses .name).bind_forward fun _ => pure_forward _)

theorem keyword_progresses {word : String} (hne : word ≠ "") : Progresses (keyword word) := by
  intro text value rest h
  have hlength : 0 < word.toList.length := List.length_pos_iff.mpr (by simpa using hne)
  rw [keyword_eq_ok h, List.length_append]
  omega

end Parser

namespace Expr.Grammar

variable {item : Parser α}

theorem numeral_progresses : Progresses numeral := by
  have hdigits : Forward (token .digits Char.isDigit) :=
    forward_iff_admits.mpr fun _ => Region.token_admitted _ .digits Char.isDigit
  refine (Toolkit.char '-').forward.optional.bind_progresses fun sign =>
    (token_progresses .digits).bind_forward fun whole => ?_
  exact ((Toolkit.char '.').forward.bind fun _ => hdigits).optional.bind fun _ => pure_forward _

theorem number_progresses : Progresses number := by
  intro text value rest h
  rw [number] at h
  split at h
  · cases h
  · rename_i read left hnumeral
    split at h
    · cases h
      exact numeral_progresses _ _ _ hnumeral
    · cases h

theorem string_progresses : Progresses string :=
  quoted_progresses.bind_forward fun _ => pure_forward _

theorem comma_forward : Forward comma :=
  forward_iff_admits.mpr fun _ => comma_admitted _

theorem bracketed_progresses (h : Forward item) (opening closing : Char) :
    Progresses (bracketed opening closing item) :=
  (char_progresses opening).bind_forward fun _ => Toolkit.blanksAndBreaks.forward.bind fun _ =>
    (comma_forward.separated h).bind fun _ => Toolkit.blanksAndBreaks.forward.bind fun _ =>
      (Toolkit.char closing).forward.commit.bind fun _ => pure_forward _

theorem documentPath_forward : Forward documentPath :=
  forward_iff_admits.mpr fun _ => documentPath_admitted _

theorem call_progresses (start : List Char) (function : String) :
    Progresses (call start function) := by
  refine (bracketed_progresses Toolkit.quoted.forward '(' ')').bind_forward fun arguments => ?_
  cases ofCall function arguments with
  | ok expr => exact pure_forward expr
  | error cause => exact abort_forward start cause

theorem word_progresses : Progresses word := by
  intro text value rest h
  simp only [word] at h
  split at h
  · cases h
  · rename_i letters left hletters
    have hlt := token_progresses .name _ _ _ hletters
    split at h
    · exact Nat.lt_trans (call_progresses _ _ _ _ _ h) hlt
    · split at h
      · cases h
        exact hlt
      · cases h
        exact hlt
      · cases h
        exact hlt
      · exact Nat.lt_of_le_of_lt (documentPath_forward _ _ _ h).length_le hlt
      · cases h

/-- The forms of an expression whose parts are read by a given parser. -/
def level (item : Parser Expr) : Parser Expr :=
  expect "expression" (string <|> number <|> array item <|> object item <|> word)

theorem field_suffixed {item : Parser Expr} (h : Suffixed item) : Suffixed (field item) :=
  suffixed_iff_admits.mpr fun source => field_admitted (suffixed_iff_admits.mp h source)

theorem level_progresses {item : Parser Expr} (h : Suffixed item) : Progresses (level item) := by
  have harray : Progresses (array item) :=
    (bracketed_progresses h.forward '[' ']').bind_forward fun _ => pure_forward _
  have hobject : Progresses (object item) :=
    (bracketed_progresses (field_suffixed h).forward '{' '}').bind_forward fun _ => pure_forward _
  exact (string_progresses.orElse (number_progresses.orElse (harray.orElse
    (hobject.orElse word_progresses)))).expect "expression"

theorem expression_suffixed (bound : Nat) : Suffixed (expression bound) :=
  suffixed_iff_admits.mpr fun _ => expression_admitted _ bound

theorem expression_progresses (bound : Nat) : Progresses (expression bound) := by
  cases bound with
  | zero => exact fun _ _ _ h => by cases h
  | succ bound => exact level_progresses (expression_suffixed bound)

end Expr.Grammar

theorem Expr.parse_suffixed : Suffixed Expr.parse :=
  suffixed_iff_admits.mpr fun _ => Expr.parse_admitted _

theorem Expr.parse_progresses : Progresses Expr.parse :=
  fun text => Grammar.expression_progresses text.length text

namespace Item

variable {query : Parser ε}

theorem mapKeyword_progresses : Progresses mapKeyword :=
  fun _ _ _ h => mapKeyword_shortens h

section

variable (hquery : Suffixed query)

include hquery

theorem assigned_forward : Forward (assigned query) :=
  Suffixed.forward <| suffixed_iff_admits.mpr fun source =>
    assigned_admitted (suffixed_iff_admits.mp hquery source)

theorem letForm_progresses : Progresses (letForm query) :=
  here_forward.bind_progresses fun _ => (keyword_progresses (by decide)).bind_forward fun _ =>
    Toolkit.blanks1.forward.bind fun _ =>
      (Toolkit.name.forward.expect "variable-name").commit.bind fun _ =>
        (assigned_forward hquery).bind fun _ => pure_forward _

theorem metaForm_progresses : Progresses (metaForm query) := by
  have hboundary : Forward metaBoundary :=
    (Toolkit.blanks1.forward.bind fun _ => pure_forward ()).orElse (Toolkit.keyword "=").forward
  exact here_forward.bind_progresses fun _ =>
    (keyword_progresses (by decide)).bind_forward fun _ => hboundary.peek.bind fun _ =>
      Toolkit.blanks.forward.bind fun _ => Toolkit.name.forward.optional.bind fun _ =>
        (assigned_forward hquery).bind fun _ => pure_forward _

omit hquery in
theorem targetPath_progresses : Progresses targetPath := by
  refine here_forward.bind_progresses fun start =>
    (name_progresses.expect "target-path").bind_forward fun path => ?_
  split
  · exact pure_forward _
  · exact abort_forward _ _

theorem pathForm_progresses : Progresses (pathForm query) :=
  here_forward.bind_progresses fun _ => targetPath_progresses.bind_forward fun _ =>
    (assigned_forward hquery).bind fun _ => pure_forward _

theorem assignment_progresses : Progresses (assignment query) :=
  (letForm_progresses hquery).orElse
    ((metaForm_progresses hquery).orElse (pathForm_progresses hquery))

end

section

variable {item : Scoped (Item ε)} (hforward : ∀ registry, Forward (item registry))

include hforward

theorem moreInBlock_forward (bound : Nat) (registry : Registry) :
    Forward (moreInBlock item bound registry) := by
  induction bound generalizing registry with
  | zero => exact pure_forward _
  | succ bound ih =>
      rw [moreInBlock]
      refine (Toolkit.blanks.forward.bind fun _ => Toolkit.lineBreak.forward).optional.bind
        fun found => ?_
      cases found with
      | none => exact pure_forward _
      | some taken =>
          refine Toolkit.blankLines.forward.bind fun _ => here_forward.bind fun rest => ?_
          split
          · exact pure_forward _
          · exact (hforward registry).bind fun first => (ih first.2).bind fun _ => pure_forward _

theorem block_forward (registry : Registry) : Forward (block item registry) :=
  (Toolkit.char '{').forward.bind fun _ => Toolkit.blankLines.forward.bind fun _ =>
    (hforward registry).bind fun first => here_forward.bind fun rest =>
      (moreInBlock_forward hforward rest.length first.2).bind fun _ =>
        Toolkit.blankLines.forward.bind fun _ =>
          (Toolkit.char '}').forward.bind fun _ => pure_forward _

omit hforward in
theorem collide_forward (start : List Char) (name : String) (taken : Prop) [Decidable taken] :
    Forward (collide start name taken) := by
  rw [collide]
  split
  · exact abort_forward _ _
  · exact pure_forward ()

/-- A definition may fail where it begins, behind its keyword; but it succeeds further on. -/
theorem mapForm_progresses (registry : Registry) : Progresses (mapForm item registry) :=
  here_forward.bind_progresses fun start => mapKeyword_progresses.bind_forward fun _ =>
    (Toolkit.name.forward.expect "map-name").commit.bind fun name =>
      (collide_forward start name _).bind fun _ => Toolkit.blanks.forward.bind fun _ =>
        (block_forward hforward (registry.enter name)).commit.bind fun _ =>
          (collide_forward start name _).bind fun _ => pure_forward _

end

section

variable (hquery : Suffixed query)

include hquery

theorem itemUpTo_suffixed (bound : Nat) (registry : Registry) :
    Suffixed (itemUpTo query bound registry) :=
  suffixed_iff_admits.mpr fun source =>
    (itemUpTo_keeps (suffixed_iff_admits.mp hquery source) bound registry).mono fun _ _ => trivial

theorem itemUpTo_progresses (bound : Nat) (registry : Registry) :
    Progresses (itemUpTo query bound registry) := by
  cases bound with
  | zero => exact fun _ _ _ h => by cases h
  | succ bound =>
      have hinner (registry : Registry) : Forward (itemUpTo query bound registry) :=
        (itemUpTo_suffixed hquery bound registry).forward
      exact (mapForm_progresses hinner registry).orElse
        ((assignment_progresses hquery).bind_forward fun _ => pure_forward _)

theorem parse_suffixed (registry : Registry) : Suffixed (parse query registry) :=
  fun text => itemUpTo_suffixed hquery text.length registry text

theorem parse_progresses (registry : Registry) : Progresses (parse query registry) :=
  fun text => itemUpTo_progresses hquery text.length registry text

end

end Item

end Remap
