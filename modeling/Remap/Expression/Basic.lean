import Remap.Document.Value

/-!
Expressions: what stands to the right of the equals sign in a statement.
-/

namespace Remap

inductive Expr
  | literal (value : Value)
  | array (items : List Expr)
  /-- Fields in source order; of two with one key the later one counts. -/
  | object (fields : List (String × Expr))
  /-- A path into the input document; the empty path is the whole of it. -/
  | document (path : List String)
  | var (name : String)
  /-- One metadata entry, or all of them as an object. -/
  | metadata (key : Option String)
  | content
  | apply (map : String)
  | throw (message : String)

namespace Expr

instance : Inhabited Expr :=
  ⟨.content⟩

mutual

/-- The maps that an expression applies, in the order of evaluation. -/
def applied : Expr → List String
  | .apply map => [map]
  | .array items => appliedItems items
  | .object fields => appliedFields fields
  | _ => []

def appliedItems : List Expr → List String
  | [] => []
  | item :: rest => item.applied ++ appliedItems rest

def appliedFields : List (String × Expr) → List String
  | [] => []
  | (_, field) :: rest => field.applied ++ appliedFields rest

end

end Expr

end Remap
