import Remap.Proofs.Recursion

/-!
Loops without a bound.  A repetition goes on round after round, with what it has taken so far; it
ends by itself because each round that is not the last one takes a character.  So the bounds on the
repetitions of a parse are never felt either, and no repetition is ever caught going in circles.
-/

namespace Remap

open Remap.Parser Remap.Expr.Grammar

variable {α β σ ρ ε : Type}

namespace Parser

/-- How a round of a loop ends: with a state for another round, with the result of the loop, or with
the guard that is triggered by a round that takes nothing. -/
inductive Turn (σ ρ : Type)
  | again (state : σ)
  | last (result : ρ)
  | stuck

/-- A loop comes to an end: its rounds go on up to one that fails or has the result, and no guard is
triggered on the way. -/
inductive LoopEnds (turn : σ → Parser (Turn σ ρ)) :
    σ → List Char → Except Failure (ρ × List Char) → Prop
  | fails {state : σ} {text : List Char} {failure : Failure} :
      turn state text = .error failure → LoopEnds turn state text (.error failure)
  | last {state : σ} {text rest : List Char} {result : ρ} :
      turn state text = .ok (.last result, rest) → LoopEnds turn state text (.ok (result, rest))
  | again {state next : σ} {text rest : List Char} {outcome : Except Failure (ρ × List Char)} :
      turn state text = .ok (.again next, rest) → LoopEnds turn next rest outcome →
      LoopEnds turn state text outcome

/-- A round is what a bounded loop does with one repetition of its bound, and leaves less text. -/
def Unrolls (turn : σ → Parser (Turn σ ρ)) (bounded : Nat → σ → Parser ρ) : Prop :=
  ∀ bound state text, text.length ≤ bound →
    match turn state text with
    | .error failure => bounded bound state text = .error failure
    | .ok (.last result, rest) => bounded bound state text = .ok (result, rest)
    | .ok (.again next, rest) =>
        rest.length < text.length ∧ bounded bound state text = bounded (bound - 1) next rest
    | .ok (.stuck, _) => False

/-- A loop all of whose rounds leave less text ends, and as the bounded one does. -/
theorem Unrolls.loopEnds {turn : σ → Parser (Turn σ ρ)} {bounded : Nat → σ → Parser ρ}
    (h : Unrolls turn bounded) (state : σ) {bound : Nat} {text : List Char}
    (hbound : text.length ≤ bound) : LoopEnds turn state text (bounded bound state text) := by
  induction hlength : text.length using Nat.strongRecOn generalizing bound state text with
  | ind length ih =>
      have hround := h bound state text hbound
      cases hturn : turn state text with
      | error failure =>
          rw [hturn] at hround
          rw [hround]
          exact .fails hturn
      | ok result =>
          obtain ⟨found, rest⟩ := result
          rw [hturn] at hround
          cases found with
          | again next =>
              obtain ⟨hlt, hsame⟩ := hround
              rw [hsame]
              exact .again hturn (ih rest.length (by omega) next (by omega) rfl)
          | last result =>
              rw [hround]
              exact .last hturn
          | stuck => exact hround.elim

/-- A round of a repetition, with the values taken so far. -/
def repeatTurn (p : Parser α) (taken : List α) : Parser (Turn (List α) (List α)) := fun text =>
  match p text with
  | .error failure => if failure.committed then .error failure else .ok (.last taken, text)
  | .ok (value, rest) =>
      if rest.length = text.length then .ok (.stuck, text)
      else .ok (.again (taken ++ [value]), rest)

theorem repeatTurn_unrolls {p : Parser α} (hp : Repeatable p) :
    Unrolls (repeatTurn p) fun bound taken => do return taken ++ (← manyUpTo p bound) := by
  intro bound taken text hbound
  simp only [repeatTurn, bind_apply]
  cases bound with
  | zero =>
      have hnil : text = [] := List.length_eq_zero_iff.mp (Nat.le_zero.mp hbound)
      subst hnil
      obtain ⟨failure, herror, hfree⟩ := hp.atEnd
      simp [herror, hfree, manyUpTo]
  | succ bound =>
      cases hresult : p text with
      | error failure => cases hfree : failure.committed <;> simp [manyUpTo, hresult, hfree]
      | ok result =>
          obtain ⟨value, rest⟩ := result
          have hlt := hp.progress _ _ _ hresult
          simp only [hresult, manyUpTo, Nat.ne_of_lt hlt, if_false, Nat.add_sub_cancel]
          refine ⟨hlt, ?_⟩
          cases manyUpTo p bound rest <;> simp

/-- What is added to nothing. -/
theorem nil_append_eq (p : Parser (List α)) : (do return [] ++ (← p)) = p := by
  funext text
  rw [bind_apply]
  cases p text <;> rfl

theorem many_loopEnds {p : Parser α} (hp : Repeatable p) (text : List Char) :
    LoopEnds (repeatTurn p) [] text (many p text) := by
  rw [many, ← nil_append_eq (manyUpTo p text.length)]
  exact (repeatTurn_unrolls hp).loopEnds [] (Nat.le_refl text.length)

/-- A round of a list, with the items taken so far. -/
def listTurn (separator : Parser β) (item : Parser α) (taken : List α) :
    Parser (Turn (List α) (List α)) := fun text =>
  match separator text with
  | .error failure => if failure.committed then .error failure else .ok (.last taken, text)
  | .ok (_, rest) =>
      if rest.length = text.length then .ok (.stuck, text)
      else
        match item rest with
        | .error failure => if failure.committed then .error failure else .ok (.last taken, text)
        | .ok (value, rest) => .ok (.again (taken ++ [value]), rest)

theorem listTurn_unrolls {separator : Parser β} {item : Parser α}
    (hseparator : Repeatable separator) (hitem : Forward item) :
    Unrolls (listTurn separator item) fun bound taken => do
      return taken ++ (← separatedUpTo separator item bound) := by
  intro bound taken text hbound
  simp only [listTurn, bind_apply]
  cases bound with
  | zero =>
      have hnil : text = [] := List.length_eq_zero_iff.mp (Nat.le_zero.mp hbound)
      subst hnil
      obtain ⟨failure, herror, hfree⟩ := hseparator.atEnd
      simp [herror, hfree, separatedUpTo]
  | succ bound =>
      cases hfound : separator text with
      | error failure => cases hfree : failure.committed <;> simp [separatedUpTo, hfound, hfree]
      | ok found =>
          have hlt := hseparator.progress _ _ _ hfound
          simp only [hfound, separatedUpTo, Nat.ne_of_lt hlt, if_false]
          cases hresult : item found.2 with
          | error failure => cases hfree : failure.committed <;> simp [hfree]
          | ok result =>
              obtain ⟨value, rest⟩ := result
              have hle := (hitem _ _ _ hresult).length_le
              refine ⟨Nat.lt_of_le_of_lt hle hlt, ?_⟩
              simp only [Nat.add_sub_cancel]
              cases separatedUpTo separator item bound rest <;> simp

theorem separatedUpTo_loopEnds {separator : Parser β} {item : Parser α}
    (hseparator : Repeatable separator) (hitem : Forward item) (text : List Char) :
    LoopEnds (listTurn separator item) [] text (separatedUpTo separator item text.length text) := by
  rw [← nil_append_eq (separatedUpTo separator item text.length)]
  exact (listTurn_unrolls hseparator hitem).loopEnds [] (Nat.le_refl text.length)

end Parser

theorem Expr.Grammar.comma_repeatable : Repeatable comma where
  progress := Toolkit.blanksAndBreaks.forward.bind_progresses fun _ =>
    (char_progresses ',').bind_forward fun _ =>
      Toolkit.blanksAndBreaks.forward.bind fun _ => pure_forward ()
  atEnd := ⟨⟨false, [], .missingChar ','⟩, rfl, rfl⟩

namespace Item

variable {query : Parser ε} {item : Scoped (Item ε)}

/-- The items that a loop has taken so far, and the names begun in them. -/
abbrev Taken (ε : Type) := List (Item ε) × Registry

/-- A round of the loop over the items of a block after its first. -/
def blockTurn (item : Scoped (Item ε)) (taken : Taken ε) :
    Parser (Turn (Taken ε) (Taken ε)) := do
  match ← optional (do let _ ← blanks; lineBreak) with
  | none => return .last taken
  | some _ =>
      blankLines
      let rest ← here
      if rest = [] ∨ rest.head? = some '}' then return .last taken
      let (first, registry) ← item taken.2
      return .again (taken.1 ++ [first], registry)

/-- A round of the loop over the items of a program. -/
def programTurn (query : Parser ε) (taken : Taken ε) :
    Parser (Turn (Taken ε) (List (Item ε))) := do
  let (first, registry) ← parse query taken.2
  let _ ← blanks
  if ← atEnd then return .last (taken.1 ++ [first])
  let _ ← expect "end of statement" lineBreak
  blankLines
  if ← atEnd then return .last (taken.1 ++ [first])
  return .again (taken.1 ++ [first], registry)

theorem lineTail_progresses : Progresses (do let _ ← blanks; lineBreak) :=
  Toolkit.blanks.forward.bind_progresses fun _ => comment_progresses.orElse lineEnd_progresses

/-- A round of a block that is not the last one takes the end of a line and an item. -/
theorem blockTurn_unrolls (hitem : ∀ registry, Forward (item registry)) :
    Unrolls (blockTurn item) fun bound taken => do
      let (others, registry) ← moreInBlock item bound taken.2
      return (taken.1 ++ others, registry) := by
  rintro bound ⟨taken, registry⟩ text hbound
  cases bound with
  | zero =>
      have hnil : text = [] := List.length_eq_zero_iff.mp (Nat.le_zero.mp hbound)
      subst hnil
      have hturn : blockTurn item (taken, registry) [] = .ok (.last (taken, registry), []) := rfl
      rw [hturn]
      simp [moreInBlock, bind_apply]
  | succ bound =>
      simp only [blockTurn, moreInBlock, bind_apply]
      rcases hline : optional (do let _ ← blanks; lineBreak) text with failure | ⟨found, middle⟩
      · rfl
      rcases optional_eq_ok hline with ⟨ended, rfl, hended⟩ | ⟨rfl, -, -⟩
      · have hmiddle := lineTail_progresses _ _ _ hended
        simp only [bind_apply]
        rcases hskip : blankLines middle with failure | ⟨_, next⟩
        · rfl
        have hnext := (Toolkit.blankLines.forward _ _ _ hskip).length_le
        simp only [here_eq_ok]
        by_cases hend : next = [] ∨ next.head? = some '}'
        · simp [hend]
        simp only [hend, if_false, bind_apply]
        rcases hfirst : item registry next with failure | ⟨⟨first, begun⟩, rest⟩
        · rfl
        have hrest := (hitem registry _ _ _ hfirst).length_le
        simp only [pure_apply, Nat.add_sub_cancel]
        refine ⟨by omega, ?_⟩
        cases moreInBlock item bound begun rest <;> simp
      · simp

/-- A round of a program that is not the last one takes an item and the end of its line. -/
theorem programTurn_unrolls (hquery : Suffixed query) :
    Unrolls (programTurn query) fun bound taken => do
      return taken.1 ++ (← programUpTo query bound taken.2) := by
  rintro bound ⟨taken, registry⟩ text hbound
  cases bound with
  | zero =>
      have hnil : text = [] := List.length_eq_zero_iff.mp (Nat.le_zero.mp hbound)
      subst hnil
      rfl
  | succ bound =>
      simp only [programTurn, programUpTo, bind_apply]
      rcases hfirst : parse query registry text with failure | ⟨⟨first, begun⟩, middle⟩
      · rfl
      have hmiddle := parse_progresses hquery registry _ _ _ hfirst
      rcases hblanks : blanks middle with failure | ⟨_, ended⟩
      · simp [hblanks]
      have hended := (Toolkit.blanks.forward _ _ _ hblanks).length_le
      simp only [hblanks, atEnd_eq_ok]
      by_cases hend : ended.isEmpty = true
      · simp [hend]
      simp only [hend, Bool.false_eq_true, if_false, bind_apply]
      rcases hline : expect "end of statement" lineBreak ended with failure | ⟨_, below⟩
      · rfl
      have hbelow := (Toolkit.lineBreak.forward.expect _ _ _ _ hline).length_le
      rcases hskip : blankLines below with failure | ⟨_, next⟩
      · simp [hskip]
      have hnext := (Toolkit.blankLines.forward _ _ _ hskip).length_le
      simp only [hskip, atEnd_eq_ok]
      by_cases hdone : next.isEmpty = true
      · simp [hdone]
      simp only [hdone, Bool.false_eq_true, if_false, bind_apply, pure_apply, Nat.add_sub_cancel]
      refine ⟨by omega, ?_⟩
      cases programUpTo query bound begun next <;> simp

theorem moreInBlock_loopEnds (hitem : ∀ registry, Forward (item registry)) (registry : Registry)
    (text : List Char) :
    LoopEnds (blockTurn item) ([], registry) text
      (moreInBlock item text.length registry text) := by
  have hends := (blockTurn_unrolls hitem).loopEnds ([], registry) (Nat.le_refl text.length)
  rw [bind_apply] at hends
  revert hends
  cases moreInBlock item text.length registry text <;> exact id

theorem programUpTo_loopEnds (hquery : Suffixed query) (registry : Registry) (text : List Char) :
    LoopEnds (programTurn query) ([], registry) text
      (programUpTo query text.length registry text) := by
  rw [← nil_append_eq (programUpTo query text.length registry)]
  exact (programTurn_unrolls hquery).loopEnds ([], registry) (Nat.le_refl text.length)

end Item

/-- What remains after a token, an expression or an item is an end of its text, and so is the place
at which it fails; expressions and items that are read take a character.  An expression or an item
is read by its forms from those in shorter texts alone, and every loop ends with the bounded
repetition for its outcome, no guard against empty rounds being triggered: the loop over space, the
one over the segments of a path, those over lists, and those over the items of a block and of a
program. -/
theorem parsers_progress_and_loops_end :
    (∀ {α : Type} (p : Parser α), Toolkit p → Suffixed p) ∧
    (Suffixed Expr.parse ∧ Progresses Expr.parse ∧
      ∀ (item : Parser Expr) (text : List Char),
        (∀ rest, Shorter rest text → item rest = Expr.parse rest) →
          Expr.Grammar.level item text = Expr.parse text) ∧
    (∀ {ε : Type} (query : Parser ε), Suffixed query →
      (∀ registry, Suffixed (Item.parse query registry) ∧
        Progresses (Item.parse query registry)) ∧
      (∀ (item : Item.Scoped (Item ε)) (text : List Char),
        (∀ registry rest, Shorter rest text →
          item registry rest = Item.parse query registry rest) →
          ∀ registry, Item.level query item registry text = Item.parse query registry text) ∧
      ∀ registry text,
        LoopEnds (Item.blockTurn (Item.parse query)) ([], registry) text
          (Item.moreInBlock (Item.parse query) text.length registry text) ∧
        LoopEnds (Item.programTurn query) ([], registry) text
          (Item.programUpTo query text.length registry text)) ∧
    ∀ text, LoopEnds (repeatTurn gapPiece) [] text (many gapPiece text) ∧
      LoopEnds (repeatTurn pathSegment) [] text (many pathSegment text) ∧
      LoopEnds (listTurn comma Expr.parse) [] text
        (separatedUpTo comma Expr.parse text.length text) ∧
      LoopEnds (listTurn comma (field Expr.parse)) [] text
        (separatedUpTo comma (field Expr.parse) text.length text) ∧
      LoopEnds (listTurn comma quoted) [] text (separatedUpTo comma quoted text.length text) := by
  refine ⟨fun _ => Toolkit.suffixed, ?_, ?_, ?_⟩
  · exact ⟨Expr.parse_suffixed, Expr.parse_progresses, fun _ _ => Expr.level_eq_parse⟩
  · intro ε query hquery
    have hitem (registry : Item.Registry) : Forward (Item.parse query registry) :=
      (Item.parse_suffixed hquery registry).forward
    refine ⟨?_, fun _ _ => Item.level_eq_parse hquery, ?_⟩
    · exact fun registry =>
        ⟨Item.parse_suffixed hquery registry, Item.parse_progresses hquery registry⟩
    · exact fun registry text => ⟨Item.moreInBlock_loopEnds hitem registry text,
        Item.programUpTo_loopEnds hquery registry text⟩
  · intro text
    have hlist {α : Type} {item : Parser α} (hitem : Suffixed item) :=
      separatedUpTo_loopEnds comma_repeatable hitem.forward text
    exact ⟨many_loopEnds gapPiece_repeatable text, many_loopEnds pathSegment_repeatable text,
      hlist Expr.parse_suffixed, hlist (field_suffixed Expr.parse_suffixed),
      hlist Toolkit.quoted.suffixed⟩

/-- Space with a comment, a list of arguments, a program of one item and the end of a block. -/
theorem parsers_progress_and_loops_end_of_oneItem :
    Suffixed (keyword "map") ∧
    level (expression 3) "[1]".toList = Expr.parse "[1]".toList ∧
    LoopEnds (repeatTurn gapPiece) [] " #".toList (.ok ([[' '], ['#']], [])) ∧
    LoopEnds (listTurn comma quoted) [] ",\"b\")".toList (.ok (["b"], [')'])) ∧
    Item.level Expr.parse (Item.itemUpTo Expr.parse 6) .empty "a=null".toList =
      Item.parse Expr.parse .empty "a=null".toList ∧
    LoopEnds (Item.programTurn Expr.parse) ([], .empty) "a=null".toList
      (.ok ([.assign 6 (.path ["a"]) (.literal .null)], [])) ∧
    LoopEnds (Item.blockTurn (Item.parse Expr.parse)) ([], .empty) "\n\x7d".toList
      (.ok (([], .empty), ['}'])) := by
  obtain ⟨htoken, ⟨-, -, hlevel⟩, hitems, hloops⟩ := parsers_progress_and_loops_end
  obtain ⟨-, hitemLevel, hends⟩ := hitems Expr.parse Expr.parse_suffixed
  have hexpr := hlevel (expression 3) "[1]".toList fun rest hshorter =>
    expression_eq_of_length_le (Nat.le_of_lt hshorter.2) (Nat.le_refl rest.length)
  have hitem := hitemLevel (Item.itemUpTo Expr.parse 6) "a=null".toList
    (fun registry rest hshorter => Item.itemUpTo_eq_of_length_le Expr.parse_suffixed
      (Nat.le_of_lt hshorter.2) (Nat.le_refl rest.length) registry) .empty
  have hprogram := (hends .empty "a=null".toList).2
  have hblock := (hends .empty "\n\x7d".toList).1
  exact ⟨htoken _ (.keyword "map"), hexpr, (hloops " #".toList).1,
    (hloops ",\"b\")".toList).2.2.2.2, hitem, hprogram, hblock⟩

end Remap
