import Remap.Proofs.Attempts
import Remap.Proofs.CollectedMaps

/-!
Forms that commit.  An item is of the form that its text announces or fails for good, and then the
parse that asked for it fails there.  So a plan is made of forms that were read to their ends, and
no other form has left a map in it.
-/

namespace Remap.Item

open Remap.Parser

variable {ε : Type}

/-- What comes of a text that announces a form: an item of this form, or a failure for good.  Only a
text with which no target path begins is missed, and then one is expected at its very start. -/
def Form.Commits (form : Form) (registry : Registry) (text : List Char) :
    Except Failure ((Item ε × Registry) × List Char) → Prop
  | .ok (result, _) => IsRegistered form registry result
  | .error failure => failure.committed = true ∨
      form = .path ∧ Opens (!SpelledName.isStart ·) text ∧
        failure = ⟨false, text, .expected "target-path"⟩

variable {query : Parser ε} {text : List Char} {form : Form}

/-- A text with which no name begins can only be meant as a path. -/
theorem Form.Announced.eq_path (h : form.Announced text)
    (hopens : Opens (!SpelledName.isStart ·) text) : form = .path := by
  obtain ⟨hnoMap, hnoLet, hnoMeta⟩ := not_announced_of_opens hopens
  have hpath : Form.path.Announced text := (announced_path_iff Expr.parse).mpr
    ⟨mapKeyword_misses hnoMap, letForm_misses hnoLet, metaForm_misses hnoMeta⟩
  exact h.unique hpath

theorem Form.Announced.commits (h : form.Announced text) (registry : Registry) {bound : Nat}
    (hlength : text.length ≤ bound) :
    form.Commits registry text (itemUpTo query bound registry text) := by
  by_cases hopens : Opens (!SpelledName.isStart ·) text
  · rw [itemUpTo_of_opens hopens]
    exact .inr ⟨h.eq_path hopens, hopens, rfl⟩
  · cases bound with
    | zero =>
        obtain rfl := List.length_eq_zero_iff.mp (Nat.le_zero.mp hlength)
        exact absurd Opens.nil hopens
    | succ bound =>
        rcases h.decides (fun _ => hopens) bound registry with
          ⟨result, rest, hok, hresult⟩ | ⟨failure, herror, hcommitted⟩
        · rw [hok]
          exact hresult
        · rw [herror]
          exact .inl hcommitted

/-- The parse of a plan fills its table with the definitions of the items that were read. -/
theorem exists_collected {file : Option String} {source : List Char} {plan : Plan ε}
    (h : Plan.parseWith query file source = .ok plan) :
    ∃ items rest collected, program query source = .ok (items, rest) ∧
      Collecting.program query (lineOfRemaining source) .empty source =
        (.ok (plan.statements, rest), collected) ∧
      plan.maps = Dictionary.ofList collected.maps ∧
      collected.maps = definitionsIn (lineOfRemaining source) items := by
  obtain ⟨items, rest, hitems, rfl⟩ := Plan.exists_of_parseWith h
  have hfollows := Collecting.program_follows query (lineOfRemaining source) source
  rw [hitems] at hfollows
  rcases hprogram : Collecting.program query (lineOfRemaining source) .empty source with
    ⟨failure | ⟨statements, left⟩, collected⟩
  · rw [hprogram] at hfollows
    exact hfollows.elim
  · rw [hprogram] at hfollows
    obtain ⟨rfl, hcollects⟩ := hfollows
    have hmaps : collected.maps = definitionsIn (lineOfRemaining source) items := hcollects.maps
    refine ⟨items, left, collected, hitems, ?_, ?_, hmaps⟩
    · rw [hcollects.statements]
      rfl
    · rw [hmaps]
      rfl

/-- Every text announces one form: that of a keyword with a blank after it, for `meta` also an
equals sign, and otherwise that of a path.  Whatever parser reads the expressions, an item is of the
announced form, and registered if it is a definition, or it fails for good, unless no target path
begins there, when one is expected at the very start.  So it is wherever a parse of a mapping asks
for an item, if the parser of the expressions does not give back more than it was given, and the
failure of any item that was asked for is the failure of the parse, with its place and its cause.
Maps are collected in one table that no failure clears, a form that is missed has added none to it,
and in the table of a plan are the definitions of the items that were read. -/
theorem forms_commit (query : Parser ε) :
    (∀ text, ∃ form : Form, form.Announced text ∧
      ∀ other : Form, other.Announced text → other = form) ∧
    (∀ (registry : Registry) (text : List Char) (form : Form), form.Announced text →
      form.Commits registry text (parse query registry text)) ∧
    ((∀ limit, Confined limit query) → ∀ (source : List Char) (asks : Attempt) (form : Form),
      AskedIn query source asks → form.Announced asks.text →
        form.Commits asks.registry asks.text (asks.outcome query)) ∧
    (∀ (file : Option String) (source : List Char) (asks : Attempt) (failure : Failure),
      AskedIn query source asks → asks.outcome query = .error failure →
        Plan.parseWith query file source =
          .error ⟨file, lineAt source (source.length - failure.rest.length),
            columnAt source (source.length - failure.rest.length) + 1, failure.cause⟩) ∧
    (∀ (lineOf : Nat → Nat) (bound : Nat),
      Collecting.KeepsOnMiss (Collecting.itemUpTo query lineOf bound)) ∧
    ∀ (file : Option String) (source : List Char) (plan : Plan ε),
      Plan.parseWith query file source = .ok plan →
        ∃ items rest collected, program query source = .ok (items, rest) ∧
          Collecting.program query (lineOfRemaining source) .empty source =
            (.ok (plan.statements, rest), collected) ∧
          plan.maps = Dictionary.ofList collected.maps ∧
          collected.maps = definitionsIn (lineOfRemaining source) items := by
  refine ⟨fun text => ?_, fun registry text form h => h.commits registry (Nat.le_refl _),
    fun hquery source asks form hasks h => h.commits _ (hasks.length_le hquery),
    fun file source asks failure hasks hfail => hasks.parseWith_of_fails hfail file,
    Collecting.itemUpTo_keepsOnMiss query, fun file source plan => exists_collected⟩
  obtain ⟨form, hform⟩ := Form.exists_announced text
  exact ⟨form, hform, fun other hother => hother.unique hform⟩

/-- In a block a variable has no name. -/
def namelessVariable : List Char :=
  "map m \x7b\n  a = 1\n  let = 2\n\x7d\nb = 1".toList

/-- Its statement is the second one of the block. -/
def namelessAttempt : Attempt :=
  ⟨32, ⟨[], ["m"]⟩, namelessVariable.drop 18⟩

/-- The same with a name for the variable. -/
def namedVariable : List Char :=
  "map m \x7b\n  a = 1\n  let x = 2\n\x7d\nb = 1".toList

theorem askedIn_namelessVariable : AskedIn Expr.parse namelessVariable namelessAttempt := by
  have hread : ∃ first, itemUpTo Expr.parse 32 ⟨[], ["m"]⟩ (namelessVariable.drop 10) =
      .ok ((first, ⟨[], ["m"]⟩), namelessVariable.drop 15) := by
    have hends : (itemUpTo Expr.parse 32 ⟨[], ["m"]⟩ (namelessVariable.drop 10)).toOption.map
        (fun result => (result.1.2, result.2)) = some (⟨[], ["m"]⟩, namelessVariable.drop 15) := by
      decide +kernel
    obtain ⟨⟨⟨first, begun⟩, more⟩, hok, hboth⟩ := Option.map_eq_some_iff.mp hends
    cases hboth
    exact ⟨first, eq_ok_of_toOption hok⟩
  obtain ⟨first, hread⟩ := hread
  have hline : NextLine (namelessVariable.drop 15) (namelessVariable.drop 18) :=
    ⟨['\n'], namelessVariable.drop 16, eq_ok_of_toOption (by decide +kernel),
      eq_ok_of_toOption (by decide +kernel)⟩
  have hlead : blankLines (namelessVariable.drop 7) = .ok ((), namelessVariable.drop 10) :=
    eq_ok_of_toOption (by decide +kernel)
  have hblock : AsksInBlock (itemUpTo Expr.parse 32) ⟨[], ["m"]⟩
      ('\x7b' :: namelessVariable.drop 7) ⟨[], ["m"]⟩ (namelessVariable.drop 18) :=
    .later hlead hread (.next hline (by decide +kernel))
  have hkeyword : mapKeyword namelessVariable = .ok ((), namelessVariable.drop 4) :=
    eq_ok_of_toOption (by decide +kernel)
  have hname : name (namelessVariable.drop 4) = .ok ("m", namelessVariable.drop 5) :=
    eq_ok_of_toOption (by decide +kernel)
  have hgap : blanks (namelessVariable.drop 5) = .ok ([' '], '\x7b' :: namelessVariable.drop 7) :=
    eq_ok_of_toOption (by decide +kernel)
  have hasks : Asks Expr.parse ⟨33, .empty, namelessVariable⟩ namelessAttempt :=
    .inside hkeyword hname (by decide) hgap hblock (.itself _)
  have hskip : blankLines namelessVariable = .ok ((), namelessVariable) :=
    eq_ok_of_toOption (by decide +kernel)
  have hlength : namelessVariable.length = 33 := by decide +kernel
  rw [← hlength] at hasks
  refine ⟨namelessVariable, hskip, ?_⟩
  rw [hlength]
  exact .first hasks

theorem forms_commit_of_namelessVariable :
    Form.var.Announced namelessAttempt.text ∧
      Form.var.Commits namelessAttempt.registry namelessAttempt.text
        (namelessAttempt.outcome Expr.parse) ∧
      Plan.parse none namelessVariable = .error ⟨none, 3, 7, .expected "variable-name"⟩ ∧
      ∃ plan items rest, ∃ collected : Collected Expr, Plan.parse none namedVariable = .ok plan ∧
        program Expr.parse namedVariable = .ok (items, rest) ∧
        plan.maps = Dictionary.ofList collected.maps ∧
        collected.maps = definitionsIn (lineOfRemaining namedVariable) items ∧
        plan.mapNames = ["m"] := by
  obtain ⟨-, -, hcommits, haborts, -, hcollects⟩ := forms_commit Expr.parse
  have hform : Form.var.Announced namelessAttempt.text :=
    ⟨' ', namelessVariable.drop 22, by decide +kernel, by decide⟩
  have hcommitted := hcommits Expr.parse_confined namelessVariable namelessAttempt .var
    askedIn_namelessVariable hform
  refine ⟨hform, hcommitted, ?_, ?_⟩
  · have hfail : namelessAttempt.outcome Expr.parse =
        .error ⟨true, namelessVariable.drop 22, .expected "variable-name"⟩ := by
      rfl
    rw [Plan.parse, haborts none _ _ _ askedIn_namelessVariable hfail]
    exact congrArg Except.error (by decide +kernel)
  · have hnames : (Plan.parse none namedVariable).toOption.map Plan.mapNames = some ["m"] := by
      decide +kernel
    obtain ⟨plan, hplan, hmap⟩ := Option.map_eq_some_iff.mp hnames
    have hparse : Plan.parse none namedVariable = .ok plan := eq_ok_of_toOption hplan
    obtain ⟨items, rest, collected, hitems, -, hmaps, htable⟩ :=
      hcollects none namedVariable plan hparse
    exact ⟨plan, items, rest, collected, hparse, hitems, hmaps, htable, hmap⟩

end Remap.Item
