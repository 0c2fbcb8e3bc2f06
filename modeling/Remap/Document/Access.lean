import Remap.Document.Value

/-!
Reading and writing inside a document.  A path is followed key by key: objects by the key itself,
arrays by a key that is the text of an index.  A write creates the objects it misses and replaces
scalars by objects; only an array can refuse it, and then nothing is written.
-/

namespace Remap

/-- The index that a key writes. -/
def arrayIndex? (key : String) : Option Nat :=
  word? key.toList

/-- Why a key addresses no item of an array. -/
inductive PathFault
  | notAnIndex (key : String)
  | outOfBounds (index size : Nat)
deriving Repr, DecidableEq

def PathFault.message : PathFault → String
  | .notAnIndex key => s!"segment '{key}' is not an index into an array"
  | .outOfBounds index size => s!"index {index} is out of bounds for an array of {size}"

/-- A write that an array refused; `walked` ends with the key it refused. -/
structure PathError where
  walked : List String
  fault : PathFault
deriving Repr, DecidableEq

namespace PathError

/-- The same refusal, seen from one level further out. -/
def under (key : String) (error : PathError) : PathError :=
  { error with walked := key :: error.walked }

def message (error : PathError) : String :=
  let path := ".".intercalate error.walked
  s!"Invalid path '{path}': {error.fault.message}"

end PathError

/-- The index of the item that a key addresses in an array of a given size. -/
def arraySlot (size : Nat) (key : String) : Except PathFault (Fin size) :=
  match arrayIndex? key with
  | none => .error (.notAnIndex key)
  | some index =>
      if h : index < size then .ok ⟨index, h⟩ else .error (.outOfBounds index size)

namespace Value

/-- The value at a path, if every key of it resolves. -/
def get? : Value → List String → Option Value
  | value, [] => some value
  | .object fields, key :: rest => (Entries.find? key fields).bind (·.get? rest)
  | .array items, key :: rest =>
      (arrayIndex? key).bind fun index => items[index]?.bind (·.get? rest)
  | _, _ :: _ => none

/-- Write a value at a path; the empty path replaces the whole document. -/
def set : Value → List String → Value → Except PathError Value
  | _, [], value => .ok value
  | .array items, key :: rest, value =>
      match arraySlot items.length key with
      | .error fault => .error ⟨[key], fault⟩
      | .ok index =>
          match items[index].set rest value with
          | .error error => .error (error.under key)
          | .ok item => .ok (.array (items.set index item))
  | .object fields, key :: rest, value =>
      match ((Entries.find? key fields).getD (.object [])).set rest value with
      | .error error => .error (error.under key)
      | .ok field => .ok (.object (Entries.insert key field fields))
  | _, key :: rest, value =>
      match (Value.object []).set rest value with
      | .error error => .error (error.under key)
      | .ok field => .ok (.object [(key, field)])

@[simp]
theorem get?_nil (value : Value) : value.get? [] = some value := by
  cases value <;> rfl

@[simp]
theorem set_nil (document value : Value) : document.set [] value = .ok value := by
  cases document <;> rfl

end Value

end Remap
