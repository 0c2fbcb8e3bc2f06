import Mathlib.Data.List.Chain
import Mathlib.Logic.Relation
import Remap.Proofs.Derivation

/-!
References between maps.  Which maps a list of statements applies is written in it; following these
maps, and the maps that they apply, gives every statement that a run of the list can come to.
-/

namespace Remap

/-- The maps that some of the statements apply. -/
def appliedIn (statements : List (Statement Expr)) : List String :=
  statements.flatMap (·.query.applied)

/-- A statement of the first map applies the second. -/
def Refers (maps : Dictionary (List (Statement Expr))) (first second : String) : Prop :=
  ∃ body, maps.get? first = some body ∧ second ∈ appliedIn body

/-- A chain of references: it begins with one of the given maps, and a statement of each map in it
applies the next. -/
structure ReferenceChain (maps : Dictionary (List (Statement Expr))) (start names : List String) :
    Prop where
  head : ∀ first ∈ names.head?, first ∈ start
  links : names.IsChain (Refers maps)

/-- A statement of a map to which references lead from one of the given maps. -/
def ReachedFrom (maps : Dictionary (List (Statement Expr))) (start : List String)
    (statement : Statement Expr) : Prop :=
  ∃ first ∈ start, ∃ map body, Relation.ReflTransGen (Refers maps) first map ∧
    maps.get? map = some body ∧ statement ∈ body

theorem mem_appliedIn {statements : List (Statement Expr)} {statement : Statement Expr}
    (hstatement : statement ∈ statements) {name : String} (hname : name ∈ statement.query.applied) :
    name ∈ appliedIn statements :=
  List.mem_flatMap.mpr ⟨statement, hstatement, hname⟩

namespace ReachedFrom

variable {maps : Dictionary (List (Statement Expr))} {start more : List String}
  {statement : Statement Expr}

theorem mono (h : ReachedFrom maps start statement) (hmore : start ⊆ more) :
    ReachedFrom maps more statement := by
  obtain ⟨first, hfirst, hreached⟩ := h
  exact ⟨first, hmore hfirst, hreached⟩

theorem of_mem {map : String} {body : List (Statement Expr)} (hmap : maps.get? map = some body)
    (hstatement : statement ∈ body) : ReachedFrom maps [map] statement :=
  ⟨map, List.mem_cons_self, map, body, .refl, hmap, hstatement⟩

/-- What the statements of a map lead to, the map leads to. -/
theorem of_applied {map : String} {body : List (Statement Expr)} (hmap : maps.get? map = some body)
    (h : ReachedFrom maps (appliedIn body) statement) : ReachedFrom maps [map] statement := by
  obtain ⟨first, hfirst, last, found, hlinks, hlast⟩ := h
  exact ⟨map, List.mem_cons_self, last, found, .head ⟨body, hmap, hfirst⟩ hlinks, hlast⟩

end ReachedFrom

namespace ReferenceChain

variable {maps : Dictionary (List (Statement Expr))} {start more names : List String}

theorem singleton {name : String} (h : name ∈ start) : ReferenceChain maps start [name] where
  head first hfirst := by
    cases hfirst
    exact h
  links := .singleton name

theorem mono (h : ReferenceChain maps start names) (hmore : start ⊆ more) :
    ReferenceChain maps more names where
  head first hfirst := hmore (h.head first hfirst)
  links := h.links

/-- A chain from what a map applies is a chain from the map. -/
theorem cons {map : String} {body : List (Statement Expr)} (hmap : maps.get? map = some body)
    (h : ReferenceChain maps (appliedIn body) names) :
    ReferenceChain maps [map] (map :: names) where
  head first hfirst := by
    cases hfirst
    exact List.mem_cons_self
  links := by
    cases names with
    | nil => exact .singleton map
    | cons next names =>
        exact List.isChain_cons_cons.mpr ⟨⟨body, hmap, h.head next rfl⟩, h.links⟩

end ReferenceChain

end Remap
