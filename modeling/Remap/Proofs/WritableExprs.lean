import Remap.Proofs.Spellable

/-!
Writable expressions.  An expression has a source form if its literals are scalars with integers of
64 bits and its paths are made of keys that a path can name.  It then has one for every choice of
white space, and the parser leads from each of them back to the expression.
-/

namespace Remap

open Remap.Parser Remap.Expr.Grammar

namespace Expr

mutual

/-- Everything in the expression can be written in a source without a double. -/
def Writable : Expr → Prop
  | .literal (.number (.integer value _ _)) => value < signBound
  | .literal (.number (.real _)) | .literal (.array _) | .literal (.object _) => False
  | .literal .null | .literal (.bool _) | .literal (.string _) => True
  | .array items => WritableItems items
  | .object fields => WritableFields fields
  | .document path =>
      ∀ key ∈ path, key ≠ "" ∧ key.toList.all (fun c => isSegmentChar c || c = '.') = true
  | .var _ | .metadata _ | .content | .apply _ | .throw _ => True

def WritableItems : List Expr → Prop
  | [] => True
  | item :: rest => item.Writable ∧ WritableItems rest

def WritableFields : List (String × Expr) → Prop
  | [] => True
  | (_, field) :: rest => field.Writable ∧ WritableFields rest

end

theorem exists_pathKeys {path : List String}
    (h : ∀ key ∈ path, key ≠ "" ∧ key.toList.all (fun c => isSegmentChar c || c = '.') = true) :
    ∃ keys : List PathKey, keys.map PathKey.name = path := by
  induction path with
  | nil => exact ⟨[], rfl⟩
  | cons key rest ih =>
      rw [List.forall_mem_cons] at h
      obtain ⟨keys, rfl⟩ := ih h.2
      exact ⟨⟨key, h.1.1, h.1.2⟩ :: keys, rfl⟩

mutual

theorem Writable.exists_spelled : (expr : Expr) → expr.Writable →
    ∃ spelled : SpelledExpr, spelled.expr = expr
  | .literal (.number (.integer value lower _)), h => ⟨.integer value lower h, rfl⟩
  | .literal (.number (.real _)), h | .literal (.array _), h | .literal (.object _), h => h.elim
  | .literal .null, _ => ⟨.null, rfl⟩
  | .literal (.bool value), _ => ⟨.bool value, rfl⟩
  | .literal (.string text), _ => ⟨.string text, rfl⟩
  | .array items, h => by
    obtain ⟨spelled, rfl⟩ := WritableItems.exists_spelled items h
    exact ⟨.array Spellable.tight.before spelled, rfl⟩
  | .object fields, h => by
    obtain ⟨spelled, rfl⟩ := WritableFields.exists_spelled fields h
    exact ⟨.object Spellable.tight.before spelled, rfl⟩
  | .document path, h => by
    obtain ⟨keys, rfl⟩ := exists_pathKeys h
    exact ⟨.document keys, rfl⟩
  | .var name, _ => ⟨.call (.var name) Spellable.tight.before Spellable.tight, rfl⟩
  | .metadata key, _ => ⟨.call (.metadata key) Spellable.tight.before Spellable.tight, rfl⟩
  | .content, _ => ⟨.call .content Spellable.tight.before Spellable.tight, rfl⟩
  | .apply map, _ => ⟨.call (.apply map) Spellable.tight.before Spellable.tight, rfl⟩
  | .throw message, _ => ⟨.call (.throw message) Spellable.tight.before Spellable.tight, rfl⟩

theorem WritableItems.exists_spelled : (items : List Expr) → WritableItems items →
    ∃ spelled : List (Around × SpelledExpr), SpelledExpr.itemExprs spelled = items
  | [], _ => ⟨[], rfl⟩
  | item :: rest, h => by
    obtain ⟨first, rfl⟩ := Writable.exists_spelled item h.1
    obtain ⟨others, rfl⟩ := WritableItems.exists_spelled rest h.2
    exact ⟨(Spellable.tight, first) :: others, rfl⟩

theorem WritableFields.exists_spelled : (fields : List (String × Expr)) → WritableFields fields →
    ∃ spelled : List (FieldLayout × String × SpelledExpr),
      SpelledExpr.fieldExprs spelled = fields
  | [], _ => ⟨[], rfl⟩
  | (key, field) :: rest, h => by
    obtain ⟨first, rfl⟩ := Writable.exists_spelled field h.1
    obtain ⟨others, rfl⟩ := WritableFields.exists_spelled rest h.2
    let layout : FieldLayout := ⟨Spellable.tight, Spellable.tight.before, Spellable.tight.after⟩
    exact ⟨(layout, key, first) :: others, rfl⟩

end

/-- An expression that can be written is read back from every text that it has: it has one, and
whatever the white space in it, the parser takes it to its end, answers the expression and leaves
what follows, if that begins with nothing that an expression goes on with. -/
theorem parse_every_spelling {expr : Expr} (h : expr.Writable) :
    (∃ spelled : SpelledExpr, spelled.expr = expr) ∧
      ∀ (spelled : SpelledExpr) (rest : List Char), spelled.expr = expr → Opens isDelimiter rest →
        Expr.parse (spelled.text ++ rest) = .ok (expr, rest) := by
  refine ⟨Writable.exists_spelled expr h, ?_⟩
  rintro spelled rest rfl hrest
  exact Expr.parse_text spelled hrest

example : [' ', '\t', '\r', '\n', '#', ',', ']', '\x7d'].all isDelimiter = true := by decide

/-- White space of every kind, an escape in a key and a field that occurs twice. -/
theorem parse_every_spelling_nested :
    let expr : Expr := .array [.literal (.number (.integer (-7) (by decide) (by decide))),
      .object [("\"", .document ["a.b", "0"]), ("\"", .metadata none)], .throw "\n"]
    expr.Writable ∧
      Expr.parse ("[ -7 ,\r\n\x7b\"\\\"\" :\tthis.a~1b.0,\"\\\"\":meta( )\x7d,throw(\"\\n\" )]" ++
          "\t# end").toList =
        .ok (expr, "\t# end".toList) := by
  intro expr
  have hinteger : (-7 : Int) < signBound := by decide
  have hpath : ∀ key ∈ ["a.b", "0"],
      key ≠ "" ∧ key.toList.all (fun c => isSegmentChar c || c = '.') = true := by
    decide
  have hwritable : expr.Writable := ⟨hinteger, ⟨hpath, trivial, trivial⟩, trivial, trivial⟩
  have hrest : Opens isDelimiter "\t# end".toList := (Opens.cons_iff ..).mpr (by decide)
  let none : Padding := ⟨[], rfl⟩
  let space : Padding := ⟨[' '], rfl⟩
  let tab : Padding := ⟨['\t'], rfl⟩
  let feed : Padding := ⟨['\r', '\n'], rfl⟩
  let path : SpelledExpr := .document [⟨"a.b", by decide, by decide⟩, ⟨"0", by decide, by decide⟩]
  let fields : List (FieldLayout × String × SpelledExpr) :=
    [(⟨⟨none, none⟩, space, tab⟩, "\"", path),
      (⟨⟨none, none⟩, none, none⟩, "\"", .call (.metadata .none) space ⟨none, none⟩)]
  let spelled : SpelledExpr := .array none
    [(⟨space, space⟩, .integer (-7) (by decide) (by decide)), (⟨feed, none⟩, .object none fields),
      (⟨none, none⟩, .call (.throw "\n") none ⟨none, space⟩)]
  exact ⟨hwritable, (parse_every_spelling hwritable).2 spelled _ rfl hrest⟩

end Expr

end Remap
