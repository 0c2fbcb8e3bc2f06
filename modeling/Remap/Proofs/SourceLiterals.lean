import Remap.Proofs.EveryStatement
import Remap.Proofs.Forms
import Remap.Proofs.SortedValues

/-!
The literals of a source.  An expression that is read has no literals but null, truth values,
numbers and strings, since arrays and objects are read as expressions of their own; and a mapping has
no expressions but those that are read from it.
-/

namespace Remap

open Remap.Parser

namespace Expr

variable {value : Expr}

namespace SortedLiterals

theorem array {items : List Expr} (h : ∀ item ∈ items, item.SortedLiterals) :
    (Expr.array items).SortedLiterals := by
  intro value hvalue
  rw [atoms] at hvalue
  induction items with
  | nil => exact absurd hvalue List.not_mem_nil
  | cons item rest ih =>
      rw [List.forall_mem_cons] at h
      rw [atomsOfItems, List.mem_append] at hvalue
      rcases hvalue with hitem | hrest
      · exact h.1 value hitem
      · exact ih h.2 hrest

theorem object {fields : List (String × Expr)} (h : ∀ field ∈ fields, field.2.SortedLiterals) :
    (Expr.object fields).SortedLiterals := by
  intro value hvalue
  rw [atoms, atomsOfFields_eq] at hvalue
  exact array (List.forall_mem_map.mpr h) value hvalue

theorem literal {value : Value} (h : value.Sorted) : (Expr.literal value).SortedLiterals := by
  intro other hother
  cases List.mem_singleton.mp hother
  exact h

/-- An expression of any other form has no literals. -/
theorem of_atoms (hatoms : value.atoms = [value]) (h : ∀ literal, value ≠ .literal literal) :
    value.SortedLiterals := by
  intro literal hliteral
  rw [hatoms] at hliteral
  exact absurd (List.mem_singleton.mp hliteral).symm (h literal)

end SortedLiterals

namespace Grammar

theorem sortedLiterals_of_ofCall {function : String} {arguments : List String}
    (h : ofCall function arguments = .ok value) : value.SortedLiterals := by
  rw [ofCall.eq_def] at h
  split at h <;> cases h
  all_goals
    apply SortedLiterals.of_atoms rfl
    intro literal hliteral
    cases hliteral

theorem call_yields (start : List Char) (function : String) :
    Yields (call start function) SortedLiterals := by
  refine (Yields.always _).bind fun arguments _ => ?_
  cases hcall : ofCall function arguments with
  | error cause => exact .abort start cause
  | ok expr => exact .pure (sortedLiterals_of_ofCall hcall)

theorem documentPath_yields : Yields documentPath SortedLiterals :=
  (Yields.always _).bind fun _ _ => .pure (.of_atoms rfl nofun)

theorem word_yields : Yields word SortedLiterals := by
  intro text value rest h
  simp only [word] at h
  split at h
  · cases h
  · split at h
    · exact call_yields _ _ _ _ _ h
    · split at h
      · cases h
        exact .literal trivial
      · cases h
        exact .literal trivial
      · cases h
        exact .literal trivial
      · exact documentPath_yields _ _ _ h
      · cases h

theorem number_yields : Yields number SortedLiterals := by
  intro text value rest h
  rw [number] at h
  split at h
  · cases h
  · split at h
    · cases h
      exact .literal trivial
    · cases h

theorem field_yields {item : Parser Expr} (h : Yields item SortedLiterals) :
    Yields (field item) fun field => field.2.SortedLiterals :=
  (Yields.always _).bind fun _ _ => (Yields.always _).bind fun _ _ =>
    h.commit.bind fun _ hvalue => .pure hvalue

theorem expression_yields (bound : Nat) : Yields (expression bound) SortedLiterals := by
  induction bound with
  | zero =>
      intro text value rest h
      cases h
  | succ bound ih =>
      have hstring : Yields string SortedLiterals :=
        (Yields.always _).bind fun _ _ => .pure (.literal trivial)
      have harray : Yields (array (expression bound)) SortedLiterals :=
        (bracketed_yields '[' ']' ih).bind fun _ hitems => .pure (.array hitems)
      have hobject : Yields (object (expression bound)) SortedLiterals :=
        (bracketed_yields '{' '}' (field_yields ih)).bind fun _ hfields => .pure (.object hfields)
      exact (hstring.orElse (number_yields.orElse (harray.orElse
        (hobject.orElse word_yields)))).expect "expression"

end Grammar

end Expr

variable {ε : Type} {query : Parser ε}

namespace Item

mutual

/-- The expressions of an item. -/
def queries : Item ε → List ε
  | .map _ body => queriesIn body
  | .assign _ _ query => [query]

def queriesIn : List (Item ε) → List ε
  | [] => []
  | item :: rest => item.queries ++ queriesIn rest

end

/-- What holds of all that the parser of queries reads holds of the expression of an assignment. -/
theorem assignment_yields {P : ε → Prop} (h : Yields query P) :
    Yields (assignment query) fun item => ∀ value ∈ item.queries, P value := by
  have hassigned : Yields (assigned query) P := (Yields.always _).bind fun _ _ => h.commit
  have hend (remaining : Nat) (target : Target) :
      Yields (do return .assign remaining target (← assigned query) : Parser (Item ε))
        fun item => ∀ value ∈ item.queries, P value :=
    hassigned.bind fun _ hvalue => .pure (List.forall_mem_singleton.mpr hvalue)
  have hlet : Yields (letForm query) fun item => ∀ value ∈ item.queries, P value :=
    (Yields.always _).bind fun _ _ => (Yields.always _).bind fun _ _ =>
      (Yields.always _).bind fun _ _ => (Yields.always _).bind fun _ _ => hend _ _
  have hmeta : Yields (metaForm query) fun item => ∀ value ∈ item.queries, P value :=
    (Yields.always _).bind fun _ _ => (Yields.always _).bind fun _ _ =>
      (Yields.always _).bind fun _ _ => (Yields.always _).bind fun _ _ =>
        (Yields.always _).bind fun _ _ => hend _ _
  have hpath : Yields (pathForm query) fun item => ∀ value ∈ item.queries, P value :=
    (Yields.always _).bind fun _ _ => (Yields.always _).bind fun _ _ => hend _ _
  exact hlet.orElse (hmeta.orElse hpath)

/-- So it holds of the expression of the statement that the assignment leaves. -/
theorem assignment_leaves {P : ε → Prop} (h : Yields query P) :
    Yields (assignment query) (Leaves fun statement => P statement.query) := by
  intro text item rest hread
  obtain ⟨remaining, target, value, rfl, -⟩ := assignment_assigns query _ _ _ hread
  have hvalue := assignment_yields h _ _ _ hread value List.mem_cons_self
  exact .assign fun _ => hvalue

end Item

namespace Plan

/-- The literals of a plan that is read from a source are sorted. -/
theorem sortedLiterals_of_parse {file : Option String} {source : List Char} {plan : Plan Expr}
    (h : parse file source = .ok plan) : plan.SortedLiterals := by
  have hparse : Yields Expr.parse Expr.SortedLiterals := by
    intro text value rest hread
    exact Expr.Grammar.expression_yields text.length text value rest hread
  exact forall_statement_of_parseWith (Item.assignment_leaves hparse) h

end Plan

end Remap
