import Remap.Proofs.StatementForms

/-!
Invariants of what is read.  What holds of a list if it holds of its items, and of a definition if
it holds of the list in its block, holds of all that is read: of an item, of the items of a block and
of those of a program.
-/

namespace Remap.Item

open Remap.Parser

variable {ε : Type}

/-- What is to hold of an item, and of a list of items, together with the maps known before and
after it. -/
structure Invariant (ε : Type) where
  item : Registry → Item ε × Registry → Prop
  items : Registry → List (Item ε) × Registry → Prop
  nil (registry : Registry) : items registry ([], registry)
  cons {registry begun after : Registry} {first : Item ε} {others : List (Item ε)} :
    item registry (first, begun) → items begun (others, after) →
      items registry (first :: others, after)
  map {registry inner : Registry} {name : String} {body : List (Item ε)} : ¬registry.Knows name →
    items (registry.enter name) (body, inner) →
      item registry (.map name body, inner.leave.register name)

namespace Invariant

variable (invariant : Invariant ε)

section

variable {item : Scoped (Item ε)}
  (h : ∀ registry, Yields (item registry) (invariant.item registry))

include h

theorem moreInBlock (bound : Nat) (registry : Registry) :
    Yields (moreInBlock item bound registry) (invariant.items registry) := by
  induction bound generalizing registry with
  | zero => exact .pure (invariant.nil registry)
  | succ bound ih =>
      rw [Item.moreInBlock]
      refine (Yields.always _).bind fun found _ => ?_
      cases found with
      | none => exact .pure (invariant.nil registry)
      | some taken =>
          refine (Yields.always _).bind fun _ _ => (Yields.always _).bind fun rest _ => ?_
          split
          · exact .pure (invariant.nil registry)
          · refine (h registry).bind fun first hfirst => ?_
            exact (ih first.2).bind fun others hothers => .pure (invariant.cons hfirst hothers)

theorem block (registry : Registry) :
    Yields (block item registry) (invariant.items registry) := by
  rw [Item.block]
  refine (Yields.always _).bind fun _ _ => (Yields.always _).bind fun _ _ => ?_
  refine (h registry).bind fun first hfirst => (Yields.always _).bind fun rest _ => ?_
  refine (invariant.moreInBlock h rest.length first.2).bind fun others hothers => ?_
  refine (Yields.always _).bind fun _ _ => (Yields.always _).bind fun _ _ => ?_
  exact .pure (invariant.cons hfirst hothers)

theorem mapForm (registry : Registry) :
    Yields (mapForm item registry) (invariant.item registry) := by
  rw [Item.mapForm]
  refine (Yields.always _).bind fun start _ => (Yields.always _).bind fun _ _ => ?_
  refine (Yields.always _).bind fun name _ => ?_
  refine (collide_yields start name _).bind fun _ hnew => (Yields.always _).bind fun _ _ => ?_
  refine (invariant.block h (registry.enter name)).commit.bind fun read hread => ?_
  exact (Yields.always _).bind fun _ _ => .pure (invariant.map hnew hread)

end

section

variable {query : Parser ε}
  (h : Yields (assignment query) fun item => ∀ registry, invariant.item registry (item, registry))

include h

theorem itemUpTo (bound : Nat) (registry : Registry) :
    Yields (itemUpTo query bound registry) (invariant.item registry) := by
  induction bound generalizing registry with
  | zero =>
      intro text value rest herror
      cases herror
  | succ bound ih =>
      refine (invariant.mapForm ih registry).orElse ?_
      exact h.bind fun item hitem => .pure (hitem registry)

theorem programUpTo (bound : Nat) (registry : Registry) :
    Yields (programUpTo query bound registry) fun items =>
      ∃ after, invariant.items registry (items, after) := by
  induction bound generalizing registry with
  | zero =>
      intro text value rest herror
      cases herror
  | succ bound ih =>
      have hparse : Yields (parse query registry) (invariant.item registry) :=
        fun text => invariant.itemUpTo h text.length registry text
      rw [Item.programUpTo]
      refine hparse.bind fun first hfirst => (Yields.always _).bind fun _ _ => ?_
      have hlast : ∃ after, invariant.items registry ([first.1], after) :=
        ⟨first.2, invariant.cons hfirst (invariant.nil first.2)⟩
      refine (Yields.always _).bind fun ended _ => ?_
      cases ended with
      | true => exact .pure hlast
      | false =>
          refine (Yields.always _).bind fun _ _ => (Yields.always _).bind fun _ _ => ?_
          refine (Yields.always _).bind fun ended _ => ?_
          cases ended with
          | true => exact .pure hlast
          | false =>
              refine (ih first.2).bind fun others ⟨after, hothers⟩ => ?_
              exact .pure ⟨after, invariant.cons hfirst hothers⟩

theorem program : Yields (program query) fun items =>
    ∃ after, invariant.items .empty (items, after) := by
  rw [Item.program]
  refine (Yields.always _).bind fun _ _ => (Yields.always _).bind fun rest _ => ?_
  exact invariant.programUpTo h rest.length .empty

end

end Invariant

end Remap.Item
