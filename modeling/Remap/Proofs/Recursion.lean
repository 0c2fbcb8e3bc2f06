import Remap.Proofs.Suffixes

/-!
Recursion without a bound.  Expressions are read with a bound on how deeply they nest, and items
with one on how deeply definitions do.  Neither bound is ever felt: an expression is what the forms
of expressions make of the expressions behind its first character, and an item what the forms of
items make of the items behind its own.
-/

namespace Remap

open Remap.Parser

variable {α β ε : Type}

namespace Parser

/-- An end of a text that is shorter than it. -/
def Shorter (rest text : List Char) : Prop :=
  rest <:+ text ∧ rest.length < text.length

/-- Two parsers do the same at every end of a text. -/
def SameIn (source : List Char) (p q : Parser α) : Prop :=
  ∀ text, text <:+ source → p text = q text

section

variable {p p' q q' : Parser α} {source text : List Char}

theorem SameIn.refl (source : List Char) (p : Parser α) : SameIn source p p :=
  fun _ _ => rfl

theorem SameIn.bind (h : SameIn source p q) (hforward : Forward p) {next next' : α → Parser β}
    (hnext : ∀ value, SameIn source (next value) (next' value)) :
    SameIn source (p >>= next) (q >>= next') := by
  intro text htext
  rw [bind_apply, bind_apply, ← h text htext]
  cases hfirst : p text with
  | error failure => rfl
  | ok result => exact hnext result.1 result.2 ((hforward _ _ _ hfirst).trans htext)

theorem SameIn.commit (h : SameIn source p q) : SameIn source (commit p) (commit q) := by
  intro text htext
  rw [Parser.commit, Parser.commit, h text htext]

theorem SameIn.optional (h : SameIn source p q) : SameIn source (optional p) (optional q) := by
  intro text htext
  rw [Parser.optional, Parser.optional, h text htext]

theorem expect_congr (h : p text = q text) (label : String) :
    expect label p text = expect label q text := by
  rw [Parser.expect, Parser.expect, h]

theorem orElse_congr (hp : p text = p' text) (hq : q text = q' text) :
    (p <|> q) text = (p' <|> q') text := by
  change Parser.orElse p q text = Parser.orElse p' q' text
  rw [Parser.orElse, Parser.orElse, hp, hq]

/-- Behind a part that takes a character only shorter texts are read. -/
theorem bind_eq_of_progresses {first : Parser β} (hforward : Forward first)
    (hprogress : Progresses first) {next next' : β → Parser α}
    (h : ∀ rest value, Shorter rest text → SameIn rest (next value) (next' value)) :
    (first >>= next) text = (first >>= next') text := by
  rw [bind_apply, bind_apply]
  cases hfirst : first text with
  | error failure => rfl
  | ok result =>
      have hshorter : Shorter result.2 text :=
        ⟨hforward _ _ _ hfirst, hprogress _ _ _ hfirst⟩
      exact h result.2 result.1 hshorter result.2 (List.suffix_refl _)

theorem Shorter.trans_suffix {rest other : List Char} (h : Shorter rest text)
    (hother : other <:+ rest) : Shorter other text :=
  ⟨hother.trans h.1, Nat.lt_of_le_of_lt hother.length_le h.2⟩

theorem SameIn.separatedUpTo {separator : Parser β} (hseparator : Forward separator)
    (h : SameIn source p q) (hforward : Forward p) (bound : Nat) :
    SameIn source (separatedUpTo separator p bound) (separatedUpTo separator q bound) := by
  induction bound with
  | zero => exact .refl source _
  | succ bound ih =>
      rw [separatedUpTo_succ, separatedUpTo_succ]
      refine ((SameIn.refl source separator).bind hseparator fun _ => h).optional.bind
        (hseparator.bind fun _ => hforward).optional fun found => ?_
      cases found with
      | none => exact .refl source _
      | some value =>
          exact ih.bind (hseparator.separatedUpTo hforward bound) fun _ => .refl source _

theorem SameIn.separated {separator : Parser β} (hseparator : Forward separator)
    (h : SameIn source p q) (hforward : Forward p) :
    SameIn source (separated separator p) (separated separator q) := by
  intro text
  rw [separated_apply, separated_apply]
  revert text
  refine h.optional.bind hforward.optional fun found => ?_
  cases found with
  | none => exact .refl source _
  | some value =>
      refine (SameIn.refl source here).bind here_forward fun rest => ?_
      exact (SameIn.separatedUpTo hseparator h hforward rest.length).bind
        (hseparator.separatedUpTo hforward rest.length) fun _ => .refl source _

end

end Parser

namespace Expr.Grammar

variable {item other : Parser α} {text : List Char}

/-- What stands in brackets is read behind the opening one. -/
theorem bracketed_eq (hforward : Forward item)
    (h : ∀ rest, Shorter rest text → item rest = other rest) (opening closing : Char) :
    bracketed opening closing item text = bracketed opening closing other text := by
  refine bind_eq_of_progresses (Toolkit.char opening).forward (char_progresses opening)
    fun rest _ hshorter => ?_
  have hitem : SameIn rest item other := fun _ hsuffix => h _ (hshorter.trans_suffix hsuffix)
  refine (SameIn.refl rest blanksAndBreaks).bind Toolkit.blanksAndBreaks.forward
    fun _ => ?_
  exact (SameIn.separated comma_forward hitem hforward).bind (comma_forward.separated hforward)
    fun _ => .refl rest _

theorem field_same {item other : Parser Expr} {source : List Char}
    (h : SameIn source item other) (hforward : Forward item) :
    SameIn source (field item) (field other) := by
  refine (SameIn.refl source quoted).bind Toolkit.quoted.forward fun key => ?_
  refine (SameIn.refl source _).bind (Forward.commit ?_) fun _ =>
    h.commit.bind hforward.commit fun _ => .refl source _
  exact Toolkit.blanksAndBreaks.forward.bind fun _ => (Toolkit.char ':').forward.bind fun _ =>
    Toolkit.blanksAndBreaks.forward.bind fun _ => pure_forward ()

/-- The forms of an expression read the expressions in it behind its first character. -/
theorem level_eq {item other : Parser Expr} (hsuffixed : Suffixed item)
    (h : ∀ rest, Shorter rest text → item rest = other rest) :
    level item text = level other text := by
  have hfields : ∀ rest, Shorter rest text → field item rest = field other rest :=
    fun rest hshorter => field_same (fun _ hsuffix => h _ (hshorter.trans_suffix hsuffix))
      hsuffixed.forward rest (List.suffix_refl rest)
  have harray : array item text = array other text := by
    rw [array, array, bind_apply, bind_apply, bracketed_eq hsuffixed.forward h]
  have hobject : object item text = object other text := by
    rw [object, object, bind_apply, bind_apply,
      bracketed_eq (field_suffixed hsuffixed).forward hfields]
  exact expect_congr (orElse_congr rfl (orElse_congr rfl (orElse_congr harray
    (orElse_congr hobject rfl)))) "expression"

/-- Once the bound is the length of the text, more of it changes nothing. -/
theorem expression_eq_of_length_le {first second : Nat} (hfirst : text.length ≤ first)
    (hsecond : text.length ≤ second) : expression first text = expression second text := by
  induction first generalizing text second with
  | zero =>
      have hnil : text = [] := List.length_eq_zero_iff.mp (Nat.le_zero.mp hfirst)
      subst hnil
      cases second <;> rfl
  | succ first ih =>
      cases second with
      | zero =>
          have hnil : text = [] := List.length_eq_zero_iff.mp (Nat.le_zero.mp hsecond)
          subst hnil
          rfl
      | succ second =>
          refine level_eq (expression_suffixed first) fun rest hshorter => ih ?_ ?_
          · exact Nat.le_of_lt_succ (Nat.lt_of_lt_of_le hshorter.2 hfirst)
          · exact Nat.le_of_lt_succ (Nat.lt_of_lt_of_le hshorter.2 hsecond)

end Expr.Grammar

/-- An expression is read by its forms from the expressions in shorter texts. -/
theorem Expr.level_eq_parse {item : Parser Expr} {text : List Char}
    (h : ∀ rest, Shorter rest text → item rest = Expr.parse rest) :
    Grammar.level item text = Expr.parse text := by
  have hshort : ∀ rest, Shorter rest text → Grammar.expression text.length rest = item rest := by
    intro rest hshorter
    rw [h rest hshorter]
    exact Grammar.expression_eq_of_length_le (Nat.le_of_lt hshorter.2) (Nat.le_refl _)
  rw [← Grammar.level_eq (Grammar.expression_suffixed text.length) hshort]
  exact Grammar.expression_eq_of_length_le (Nat.le_succ _) (Nat.le_refl _)

namespace Item

variable {query : Parser ε} {item other : Scoped (Item ε)} {text : List Char}

/-- The forms of an item whose inner items are read by a given parser. -/
def level (query : Parser ε) (item : Scoped (Item ε)) : Scoped (Item ε) := fun registry =>
  mapForm item registry <|> keeping (assignment query) registry

theorem moreInBlock_same {source : List Char} (hforward : ∀ registry, Forward (item registry))
    (h : ∀ registry, SameIn source (item registry) (other registry)) (bound : Nat)
    (registry : Registry) :
    SameIn source (moreInBlock item bound registry) (moreInBlock other bound registry) := by
  induction bound generalizing registry with
  | zero => exact .refl source _
  | succ bound ih =>
      rw [moreInBlock, moreInBlock]
      refine (SameIn.refl source _).bind
        (Toolkit.blanks.forward.bind fun _ => Toolkit.lineBreak.forward).optional fun found => ?_
      cases found with
      | none => exact .refl source _
      | some taken =>
          refine (SameIn.refl source _).bind Toolkit.blankLines.forward fun _ =>
            (SameIn.refl source _).bind here_forward fun rest => ?_
          split
          · exact .refl source _
          · exact (h registry).bind (hforward registry) fun first =>
              (ih first.2).bind (moreInBlock_forward hforward bound first.2)
                fun _ => .refl source _

theorem block_same {source : List Char} (hforward : ∀ registry, Forward (item registry))
    (h : ∀ registry, SameIn source (item registry) (other registry)) (registry : Registry) :
    SameIn source (block item registry) (block other registry) := by
  refine (SameIn.refl source _).bind (Toolkit.char '{').forward fun _ =>
    (SameIn.refl source _).bind Toolkit.blankLines.forward fun _ => ?_
  refine (h registry).bind (hforward registry) fun first =>
    (SameIn.refl source _).bind here_forward fun rest => ?_
  exact (moreInBlock_same hforward h rest.length first.2).bind
    (moreInBlock_forward hforward rest.length first.2) fun _ => .refl source _

theorem mapKeyword_forward : Forward mapKeyword :=
  (Toolkit.keyword "map").forward.bind fun _ => Toolkit.blanks1.forward.bind fun _ =>
    pure_forward ()

/-- A definition reads the items of its block behind its keyword. -/
theorem mapForm_eq (hforward : ∀ registry, Forward (item registry))
    (h : ∀ registry rest, Shorter rest text → item registry rest = other registry rest)
    (registry : Registry) : mapForm item registry text = mapForm other registry text := by
  rw [mapForm, mapForm, bind_of_ok (here_eq_ok text), bind_of_ok (here_eq_ok text)]
  refine bind_eq_of_progresses mapKeyword_forward mapKeyword_progresses fun rest _ hshorter => ?_
  have hitem : ∀ registry, SameIn rest (item registry) (other registry) :=
    fun registry _ hsuffix => h registry _ (hshorter.trans_suffix hsuffix)
  refine (SameIn.refl rest _).bind (Toolkit.name.forward.expect "map-name").commit fun name =>
    (SameIn.refl rest _).bind (collide_forward text name _) fun _ =>
      (SameIn.refl rest _).bind Toolkit.blanks.forward fun _ => ?_
  exact (block_same hforward hitem (registry.enter name)).commit.bind
    (block_forward hforward (registry.enter name)).commit fun _ => .refl rest _

/-- The forms of an item read the items in it behind its first character. -/
theorem level_eq (hforward : ∀ registry, Forward (item registry))
    (h : ∀ registry rest, Shorter rest text → item registry rest = other registry rest)
    (registry : Registry) : level query item registry text = level query other registry text :=
  orElse_congr (mapForm_eq hforward h registry) rfl

section

variable (hquery : Suffixed query)

include hquery

/-- Once the bound is the length of the text, more of it changes nothing. -/
theorem itemUpTo_eq_of_length_le {first second : Nat} (hfirst : text.length ≤ first)
    (hsecond : text.length ≤ second) (registry : Registry) :
    itemUpTo query first registry text = itemUpTo query second registry text := by
  induction first generalizing text second registry with
  | zero =>
      have hnil : text = [] := List.length_eq_zero_iff.mp (Nat.le_zero.mp hfirst)
      subst hnil
      rw [itemUpTo_of_opens .nil, itemUpTo_of_opens .nil]
  | succ first ih =>
      cases second with
      | zero =>
          have hnil : text = [] := List.length_eq_zero_iff.mp (Nat.le_zero.mp hsecond)
          subst hnil
          rw [itemUpTo_of_opens .nil, itemUpTo_of_opens .nil]
      | succ second =>
          have hforward (registry : Registry) : Forward (itemUpTo query first registry) :=
            (itemUpTo_suffixed hquery first registry).forward
          refine level_eq hforward (fun registry rest hshorter => ih ?_ ?_ registry) registry
          · exact Nat.le_of_lt_succ (Nat.lt_of_lt_of_le hshorter.2 hfirst)
          · exact Nat.le_of_lt_succ (Nat.lt_of_lt_of_le hshorter.2 hsecond)

/-- An item is read by its forms from the items in shorter texts. -/
theorem level_eq_parse
    (h : ∀ registry rest, Shorter rest text → item registry rest = parse query registry rest)
    (registry : Registry) : level query item registry text = parse query registry text := by
  have hshort : ∀ registry rest, Shorter rest text →
      itemUpTo query text.length registry rest = item registry rest := by
    intro registry rest hshorter
    rw [h registry rest hshorter]
    exact itemUpTo_eq_of_length_le hquery (Nat.le_of_lt hshorter.2) (Nat.le_refl _) registry
  have hforward (registry : Registry) : Forward (itemUpTo query text.length registry) :=
    (itemUpTo_suffixed hquery text.length registry).forward
  rw [← level_eq hforward hshort]
  exact itemUpTo_eq_of_length_le hquery (Nat.le_succ _) (Nat.le_refl _) registry

end

end Item

end Remap
