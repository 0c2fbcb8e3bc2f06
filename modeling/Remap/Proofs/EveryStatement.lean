import Remap.Proofs.ItemInvariants
import Remap.Proofs.Lines

/-!
What holds of every statement.  An item leaves its own statement in the plan, or one list for each
definition in it.  A property that the statements have of every assignment that can be read is a
property of all statements of a plan, those of its maps too.
-/

namespace Remap

open Remap.Parser

variable {ε : Type} {Q : Statement ε → Prop}

namespace Item

/-- Wherever the item stands, the statements that it leaves in a plan have the property. -/
structure Leaves (Q : Statement ε → Prop) (item : Item ε) : Prop where
  own (lineOf : Nat → Nat) (statement : Statement ε) : item.statement? lineOf = some statement →
    Q statement
  mapped (lineOf : Nat → Nat) (name : String) (body : List (Statement ε)) :
    (name, body) ∈ item.definitions lineOf → ∀ statement ∈ body, Q statement

section

variable {items : List (Item ε)} (h : ∀ item ∈ items, item.Leaves Q) {lineOf : Nat → Nat}

include h

theorem Leaves.of_mem_statements {statement : Statement ε}
    (hstatement : statement ∈ statements lineOf items) : Q statement := by
  obtain ⟨item, hitem, hown⟩ := List.mem_filterMap.mp hstatement
  exact (h item hitem).own lineOf statement hown

theorem Leaves.of_mem_definitionsIn {name : String} {body : List (Statement ε)}
    (hbody : (name, body) ∈ definitionsIn lineOf items) : ∀ statement ∈ body, Q statement := by
  induction items with
  | nil => cases hbody
  | cons item rest ih =>
      rw [List.forall_mem_cons] at h
      rcases List.mem_append.mp hbody with hitem | hrest
      · exact h.1.mapped lineOf name body hitem
      · exact ih h.2 hrest

theorem Leaves.map (name : String) : (Item.map name items).Leaves Q where
  own _ _ hown := by cases hown
  mapped lineOf other body hbody := by
    rw [definitions, List.mem_append, List.mem_singleton] at hbody
    rcases hbody with hinner | heq
    · exact of_mem_definitionsIn h hinner
    · cases heq
      exact fun _ => of_mem_statements h

end

theorem Leaves.assign {remaining : Nat} {target : Target} {query : ε}
    (h : ∀ line, Q ⟨line, target, query⟩) : (Item.assign remaining target query).Leaves Q where
  own lineOf statement hown := by
    cases hown
    exact h (lineOf remaining)
  mapped _ _ _ hbody := by cases hbody

/-- Items that leave statements with the property. -/
def leaving (Q : Statement ε → Prop) : Invariant ε where
  item _ result := result.1.Leaves Q
  items _ result := ∀ item ∈ result.1, item.Leaves Q
  nil _ := List.forall_mem_nil _
  cons hfirst hothers := List.forall_mem_cons.mpr ⟨hfirst, hothers⟩
  map _ hbody := .map hbody _

end Item

/-- All statements of a plan, those of its maps too, are those of assignments that were read. -/
theorem Plan.forall_statement_of_parseWith {query : Parser ε} {file : Option String}
    {source : List Char} {plan : Plan ε} (h : Yields (Item.assignment query) (Item.Leaves Q))
    (hplan : parseWith query file source = .ok plan) :
    (∀ statement ∈ plan.statements, Q statement) ∧
      ∀ name body, plan.maps.get? name = some body → ∀ statement ∈ body, Q statement := by
  obtain ⟨items, rest, hitems, rfl⟩ := exists_of_parseWith hplan
  obtain ⟨after, hleaves⟩ :=
    (Item.leaving Q).program (h.mono fun _ hitem _ => hitem) source items rest hitems
  refine ⟨fun _ => Item.Leaves.of_mem_statements hleaves, fun name body hbody => ?_⟩
  have hmem : (name, body) ∈ Item.definitionsIn (lineOfRemaining source) items :=
    Dictionary.mem_of_get?_ofList hbody
  exact Item.Leaves.of_mem_definitionsIn hleaves hmem

end Remap
