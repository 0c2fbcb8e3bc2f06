import Remap.Mapping.Collecting
import Remap.Proofs.Forms

/-!
Collected maps.  The parse that fills one table of maps in place does what the parse does that hands
the registry on from item to item: a form that misses has added nothing to the table, and one that
fails otherwise ends the parse.  So the table of a parse that succeeds holds the definitions of the
items that were read, and no other.
-/

namespace Remap

open Remap.Parser

variable {ε : Type}

namespace Collecting

section

variable {α β γ δ : Type} {p : Parser α} {q : Collecting ε β} {R : α → β → Collected ε → Prop}
  {S : γ → δ → Collected ε → Prop} {collected : Collected ε}

/-- Both parses fail alike, or both go on with the same text and related values. -/
def Agrees (R : α → β → Collected ε → Prop) :
    Except Failure (α × List Char) → Except Failure (β × List Char) × Collected ε → Prop
  | .ok (value, rest), (.ok (found, left), collected) => left = rest ∧ R value found collected
  | .error failure, (.error found, _) => found = failure
  | _, _ => False

/-- From what has been collected the second parser does what the first does. -/
def Follows (R : α → β → Collected ε → Prop) (p : Parser α) (q : Collecting ε β)
    (collected : Collected ε) : Prop :=
  ∀ text, Agrees R (p text) (q collected text)

/-- Where the form is missed it has collected nothing. -/
def KeepsOnMiss (q : Collecting ε β) : Prop :=
  ∀ collected text failure after, q collected text = (.error failure, after) →
    failure.committed = false → after = collected

theorem KeepsOnMiss.lift (p : Parser β) : KeepsOnMiss (lift p : Collecting ε β) := by
  intro collected text failure after h _
  exact (Prod.ext_iff.mp h).2.symm

theorem KeepsOnMiss.orElse {q' : Collecting ε β} (h : KeepsOnMiss q) (h' : KeepsOnMiss q') :
    KeepsOnMiss (orElse q q') := by
  intro collected text failure after horElse hfree
  rw [Collecting.orElse] at horElse
  rcases hfirst : q collected text with ⟨first | result, between⟩
  · rw [hfirst] at horElse
    by_cases hcommitted : first.committed = true
    · simp only [hcommitted, ↓reduceIte] at horElse
      cases horElse
      rw [hfree] at hcommitted
      cases hcommitted
    · obtain rfl := h _ _ _ _ hfirst (by simpa using hcommitted)
      simp only [hcommitted, Bool.false_eq_true, ↓reduceIte] at horElse
      rcases hsecond : q' between text with ⟨second | result, later⟩
      · rw [hsecond] at horElse
        cases horElse
        refine h' _ _ _ _ hsecond ?_
        cases hother : second.committed with
        | false => rfl
        | true =>
            rw [hother, if_pos rfl, hother] at hfree
            cases hfree
      · rw [hsecond] at horElse
        cases horElse
  · rw [hfirst] at horElse
    cases horElse

namespace Follows

theorem mono {R' : α → β → Collected ε → Prop} (h : Follows R p q collected)
    (himp : ∀ value found after, R value found after → R' value found after) :
    Follows R' p q collected := by
  intro text
  have hagrees := h text
  revert hagrees
  rcases p text with failure | ⟨value, rest⟩ <;>
    rcases q collected text with ⟨found | ⟨found, left⟩, after⟩
  · exact id
  · exact id
  · exact id
  · exact And.imp_right (himp value found after)

theorem pure {value : α} {found : β} (h : R value found collected) :
    Follows R (Pure.pure value) (Pure.pure found) collected :=
  fun _ => ⟨rfl, h⟩

theorem lift (p : Parser α) :
    Follows (fun value found after => found = value ∧ after = collected) p (lift p) collected := by
  intro text
  rw [Collecting.lift]
  cases p text with
  | ok result => exact ⟨rfl, rfl, rfl⟩
  | error failure => rfl

theorem bind {next : α → Parser γ} {then_ : β → Collecting ε δ} (h : Follows R p q collected)
    (hnext : ∀ value found after, R value found after → Follows S (next value) (then_ found) after) :
    Follows S (p >>= next) (q >>= then_) collected := by
  intro text
  have hagrees := h text
  change Agrees S _ (Collecting.bind q then_ collected text)
  rw [bind_apply, Collecting.bind]
  revert hagrees
  rcases p text with failure | ⟨value, rest⟩ <;>
    rcases q collected text with ⟨found | ⟨found, left⟩, after⟩
  · exact id
  · exact False.elim
  · exact False.elim
  · rintro ⟨rfl, hrelated⟩
    exact hnext value found after hrelated left

theorem lift_bind {next : α → Parser γ} {then_ : α → Collecting ε δ} (p : Parser α)
    (hnext : ∀ value, Follows S (next value) (then_ value) collected) :
    Follows S (p >>= next) (Collecting.lift p >>= then_) collected := by
  refine (Follows.lift p).bind ?_
  rintro value _ _ ⟨rfl, rfl⟩
  exact hnext _

theorem commit (h : Follows R p q collected) :
    Follows R (Parser.commit p) (Collecting.commit q) collected := by
  intro text
  have hagrees := h text
  rw [Parser.commit, Collecting.commit]
  revert hagrees
  rcases p text with failure | result <;> rcases q collected text with ⟨found | found, after⟩
  · rintro rfl
    rfl
  · exact False.elim
  · exact False.elim
  · exact id

/-- While a block is read its name is open. -/
theorem enclosed {name : String}
    (h : Follows (fun value found after => R value found after.leave) p q (collected.enter name)) :
    Follows R p (Collecting.enclosed name q) collected := by
  intro text
  have hagrees := h text
  rw [Collecting.enclosed]
  revert hagrees
  rcases p text with failure | result <;>
    rcases q (collected.enter name) text with ⟨found | found, after⟩ <;> exact id

/-- If the first form collects nothing where it misses, the second one begins with the same. -/
theorem orElse {p' : Parser α} {q' : Collecting ε β} (h : Follows R p q collected)
    (hkeeps : KeepsOnMiss q) (h' : Follows R p' q' collected) :
    Follows R (p <|> p') (Collecting.orElse q q') collected := by
  intro text
  have hfirst := h text
  have hsecond := h' text
  have hkept := hkeeps collected text
  change Agrees R (Parser.orElse p p' text) _
  rw [Parser.orElse, Collecting.orElse]
  revert hfirst hkept
  rcases p text with first | result <;> rcases q collected text with ⟨found | found, after⟩
  · rintro rfl hkept
    by_cases hcommitted : found.committed = true
    · simp only [hcommitted, ↓reduceIte]
      rfl
    · obtain rfl : after = collected := hkept found after rfl (by simpa using hcommitted)
      simp only [hcommitted, Bool.false_eq_true, ↓reduceIte]
      revert hsecond
      rcases p' text with second | result <;> rcases q' after text with ⟨other | other, later⟩
      · rintro rfl
        rfl
      · exact False.elim
      · exact False.elim
      · exact id
  · exact fun hfalse _ => hfalse.elim
  · exact fun hfalse _ => hfalse.elim
  · exact fun hboth _ => hboth

end Follows

end

/-- From one table on, the statements and the definitions of these items have been collected. -/
structure Collects (lineOf : Nat → Nat) (before : Collected ε) (items : List (Item ε))
    (statements : List (Statement ε)) (after : Collected ε) : Prop where
  statements : statements = Item.statements lineOf items
  maps : after.maps = before.maps ++ Item.definitionsIn lineOf items
  opened : after.opened = before.opened

namespace Collects

variable {lineOf : Nat → Nat} {before between after : Collected ε} {item : Item ε}
  {items : List (Item ε)} {first others : List (Statement ε)}

theorem nil : Collects lineOf before [] [] before where
  statements := rfl
  maps := (List.append_nil before.maps).symm
  opened := rfl

theorem cons (hfirst : Collects lineOf before [item] first between)
    (hothers : Collects lineOf between items others after) :
    Collects lineOf before (item :: items) (first ++ others) after where
  statements := by
    rw [hfirst.statements, hothers.statements, ← Item.statements_append, List.singleton_append]
  maps := by
    rw [hothers.maps, hfirst.maps, List.append_assoc, ← Item.definitionsIn_append,
      List.singleton_append]
  opened := hothers.opened.trans hfirst.opened

theorem assign (remaining : Nat) (target : Target) (query : ε) :
    Collects lineOf before [.assign remaining target query]
      [⟨lineOf remaining, target, query⟩] before where
  statements := rfl
  maps := (List.append_nil before.maps).symm
  opened := rfl

/-- A definition is added after those in its block. -/
theorem map {name : String} {body : List (Statement ε)}
    (h : Collects lineOf (before.enter name) items body after) :
    Collects lineOf before [.map name items] [] (after.leave.add name body) where
  statements := rfl
  maps := by
    rw [Item.definitionsIn, Item.definitions, Item.definitionsIn, List.append_nil,
      ← List.append_assoc, ← h.statements]
    exact congrArg (· ++ [(name, body)]) h.maps
  opened := by
    rw [Collected.add, Collected.leave, h.opened]
    rfl

end Collects

/-- The item has been collected and the registry is that of the table. -/
def ItemCollected (lineOf : Nat → Nat) (before : Collected ε) (result : Item ε × Item.Registry)
    (found : Option (Statement ε)) (after : Collected ε) : Prop :=
  after.registry = result.2 ∧ Collects lineOf before [result.1] found.toList after

/-- The items have been collected and the registry is that of the table. -/
def ItemsCollected (lineOf : Nat → Nat) (before : Collected ε)
    (result : List (Item ε) × Item.Registry) (found : List (Statement ε)) (after : Collected ε) :
    Prop :=
  after.registry = result.2 ∧ Collects lineOf before result.1 found after

section

variable {lineOf : Nat → Nat} {item : Item.Scoped (Item ε)}
  {read : Collecting ε (Option (Statement ε))}
  (hitem : ∀ collected, Follows (ItemCollected lineOf collected) (item collected.registry) read
    collected)

include hitem

theorem moreInBlock_follows (bound : Nat) (collected : Collected ε) :
    Follows (ItemsCollected lineOf collected) (Item.moreInBlock item bound collected.registry)
      (moreInBlock read bound) collected := by
  induction bound generalizing collected with
  | zero => exact .pure ⟨rfl, .nil⟩
  | succ bound ih =>
      rw [Item.moreInBlock, moreInBlock]
      refine .lift_bind _ fun found => ?_
      cases found with
      | none => exact .pure ⟨rfl, .nil⟩
      | some taken =>
          refine .lift_bind _ fun _ => .lift_bind _ fun rest => ?_
          split
          · exact .pure ⟨rfl, .nil⟩
          · refine (hitem collected).bind ?_
            rintro ⟨first, _⟩ found between ⟨rfl, hfirst⟩
            refine (ih between).bind ?_
            rintro ⟨others, _⟩ statements after ⟨rfl, hothers⟩
            exact .pure ⟨rfl, hfirst.cons hothers⟩

theorem block_follows (collected : Collected ε) :
    Follows (ItemsCollected lineOf collected) (Item.block item collected.registry) (block read)
      collected := by
  rw [Item.block, block]
  refine .lift_bind _ fun _ => .lift_bind _ fun _ => (hitem collected).bind ?_
  rintro ⟨first, _⟩ found between ⟨rfl, hfirst⟩
  refine .lift_bind _ fun rest => (moreInBlock_follows hitem rest.length between).bind ?_
  rintro ⟨others, _⟩ statements after ⟨rfl, hothers⟩
  exact .lift_bind _ fun _ => .lift_bind _ fun _ => .pure ⟨rfl, hfirst.cons hothers⟩

theorem mapForm_follows (collected : Collected ε) :
    Follows (ItemCollected lineOf collected) (Item.mapForm item collected.registry) (mapForm read)
      collected := by
  rw [Item.mapForm, mapForm]
  refine .lift_bind _ fun start => .lift_bind _ fun _ => .lift_bind _ fun name => ?_
  change Follows _ _ (do lift (Item.collide start name (collected.registry.Knows name)); _) collected
  refine .lift_bind _ fun _ => .lift_bind _ fun _ => ?_
  have hblock : Follows (fun result found after => ∃ inner : Collected ε, after = inner.leave ∧
      ItemsCollected lineOf (collected.enter name) result found inner)
      (Parser.commit (Item.block item (collected.registry.enter name)))
      (enclosed name (commit (block read))) collected :=
    ((block_follows hitem (collected.enter name)).commit.mono
      fun result found inner hinner => ⟨inner, rfl, hinner⟩).enclosed
  refine hblock.bind ?_
  rintro ⟨body, _⟩ found _ ⟨inner, rfl, rfl, hbody⟩
  change Follows _ _ (do lift (Item.collide start name (name ∈ inner.registry.closed)); _) inner.leave
  refine .lift_bind _ fun _ => ?_
  intro text
  exact ⟨rfl, (inner.leave.registry_add name found).trans rfl, hbody.map⟩

/-- A map form that is missed has read no block. -/
theorem mapForm_keepsOnMiss : KeepsOnMiss (mapForm read) := by
  intro collected text failure after h hfree
  have hagrees := mapForm_follows hitem collected text
  rw [h] at hagrees
  have hmisses : Misses (Item.mapForm item collected.registry) text := by
    revert hagrees
    rcases hform : Item.mapForm item collected.registry text with found | result
    · rintro rfl
      exact ⟨failure, hform, hfree⟩
    · exact False.elim
  obtain ⟨missed, hmissed, -⟩ := Item.mapForm_misses_iff.mp hmisses
  change Collecting.bind (lift Item.mapKeyword) _ collected text = _ at h
  rw [Collecting.bind, lift, hmissed] at h
  exact (Prod.ext_iff.mp h).2.symm

end

theorem itemUpTo_follows (query : Parser ε) (lineOf : Nat → Nat) (bound : Nat)
    (collected : Collected ε) :
    Follows (ItemCollected lineOf collected) (Item.itemUpTo query bound collected.registry)
      (itemUpTo query lineOf bound) collected := by
  induction bound generalizing collected with
  | zero => exact fun _ => rfl
  | succ bound ih =>
      rw [itemUpTo]
      refine (mapForm_follows ih collected).orElse (mapForm_keepsOnMiss ih) fun text => ?_
      rw [Item.keeping, lift, bind_apply, bind_apply]
      cases hassign : Item.assignment query text with
      | error failure => rfl
      | ok result =>
          obtain ⟨item, rest⟩ := result
          refine ⟨rfl, rfl, ?_⟩
          cases item with
          | map name body => exact absurd rfl (Item.assignment_form query _ _ _ hassign)
          | assign remaining target expr => exact .assign remaining target expr

theorem itemUpTo_keepsOnMiss (query : Parser ε) (lineOf : Nat → Nat) (bound : Nat) :
    KeepsOnMiss (itemUpTo query lineOf bound) := by
  cases bound with
  | zero => exact .lift _
  | succ bound =>
      exact (mapForm_keepsOnMiss (itemUpTo_follows query lineOf bound)).orElse (.lift _)

theorem programUpTo_follows (query : Parser ε) (lineOf : Nat → Nat) (bound : Nat)
    (collected : Collected ε) :
    Follows (Collects lineOf collected) (Item.programUpTo query bound collected.registry)
      (programUpTo query lineOf bound) collected := by
  induction bound generalizing collected with
  | zero => exact fun _ => rfl
  | succ bound ih =>
      rw [Item.programUpTo, programUpTo]
      have hparse : Follows (ItemCollected lineOf collected) (Item.parse query collected.registry)
          (do let rest ← lift here; itemUpTo query lineOf rest.length) collected :=
        fun text => itemUpTo_follows query lineOf text.length collected text
      change Follows _ _ ((do let rest ← lift here; itemUpTo query lineOf rest.length) >>= _) _
      refine hparse.bind ?_
      rintro ⟨first, _⟩ found between ⟨rfl, hfirst⟩
      refine .lift_bind _ fun _ => .lift_bind _ fun ended => ?_
      split
      · exact .pure hfirst
      · refine .lift_bind _ fun _ => .lift_bind _ fun _ => .lift_bind _ fun ended => ?_
        split
        · exact .pure hfirst
        · refine (ih between).bind ?_
          rintro others statements after hothers
          exact .pure (hfirst.cons hothers)

theorem program_follows (query : Parser ε) (lineOf : Nat → Nat) :
    Follows (Collects lineOf .empty) (Item.program query) (program query lineOf) .empty := by
  rw [Item.program, program]
  exact .lift_bind _ fun _ => .lift_bind _ fun rest =>
    programUpTo_follows query lineOf rest.length .empty

end Collecting

/-- The table of a parse that succeeds is that of the plan, and all its maps are definitions of the
items that were read. -/
theorem Plan.parseCollecting_eq (query : Parser ε) (file : Option String) (source : List Char) :
    parseCollecting query file source = parseWith query file source := by
  have hfollows := Collecting.program_follows query (fun remaining =>
    ((LineIndex.ofText source).locateRemaining source.length remaining).line) source
  rw [parseCollecting, parseWith]
  revert hfollows
  rcases Item.program query source with failure | ⟨items, rest⟩ <;>
    rcases Collecting.program query _ .empty source with ⟨found | ⟨statements, left⟩, collected⟩
  · rintro rfl
    rfl
  · exact False.elim
  · exact False.elim
  · rintro ⟨rfl, hcollects⟩
    simp only [ofItems, hcollects.statements, hcollects.maps]
    rfl

end Remap
