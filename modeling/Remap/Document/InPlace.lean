import Remap.Document.Access

/-!
Writing in place.  The walk changes the document while it goes down the path: it makes the fields
that are missing and replaces scalars by objects before it knows whether an array further down
refuses a key, and whatever it changed is in the document that it leaves.
-/

namespace Remap.Value

/-- The value at a key. -/
def child? : Value → String → Option Value
  | .object fields, key => Entries.find? key fields
  | .array items, key => (arrayIndex? key).bind (items[·]?)
  | _, _ => none

/-- The value that a write goes on with below a key.  A field that is missing is an empty object, and
so is every field of a scalar. -/
def enter : Value → String → Except PathFault Value
  | .array items, key => (arraySlot items.length key).map items.get
  | .object fields, key => .ok ((Entries.find? key fields).getD (.object []))
  | _, _ => .ok (.object [])

/-- Put a value at a key that a write went through.  A scalar becomes an object. -/
def put : Value → String → Value → Value
  | .array items, key, child => .array ((arrayIndex? key).elim items (items.set · child))
  | .object fields, key, child => .object (Entries.insert key child fields)
  | _, key, child => .object [(key, child)]

/-- Write a value at a path, and the document as the walk leaves it.  What was made on the way down
is put into the document also if a key below is refused. -/
def setInPlace : Value → List String → Value → Except PathError Unit × Value
  | _, [], value => (.ok (), value)
  | document, key :: rest, value =>
      match document.enter key with
      | .error fault => (.error ⟨[key], fault⟩, document)
      | .ok child =>
          let (outcome, child) := child.setInPlace rest value
          (outcome.mapError (·.under key), document.put key child)

theorem get?_cons (document : Value) (key : String) (rest : List String) :
    document.get? (key :: rest) = (document.child? key).bind (·.get? rest) := by
  cases document with
  | array items => rw [get?, child?, Option.bind_assoc]
  | object fields => rfl
  | null | bool _ | number _ | string _ => rfl

/-- A write goes into a key, writes what is there and puts it back. -/
theorem set_cons (document : Value) (key : String) (rest : List String) (value : Value) :
    document.set (key :: rest) value =
      match document.enter key with
      | .error fault => .error ⟨[key], fault⟩
      | .ok child =>
          match child.set rest value with
          | .error error => .error (error.under key)
          | .ok child => .ok (document.put key child) := by
  cases document with
  | array items =>
      simp only [set, enter, put, arraySlot]
      cases hindex : arrayIndex? key with
      | none => rfl
      | some index =>
          by_cases hlt : index < items.length
          · simp only [hlt, ↓reduceDIte]
            rfl
          · simp only [hlt, ↓reduceDIte]
            rfl
  | object fields => rfl
  | null | bool _ | number _ | string _ => rfl

theorem setInPlace_nil (document value : Value) : document.setInPlace [] value = (.ok (), value) :=
  rfl

theorem setInPlace_of_enter_eq_error {document : Value} {key : String} {fault : PathFault}
    (h : document.enter key = .error fault) (rest : List String) (value : Value) :
    document.setInPlace (key :: rest) value = (.error ⟨[key], fault⟩, document) := by
  rw [setInPlace, h]

theorem setInPlace_of_enter_eq_ok {document child : Value} {key : String}
    (h : document.enter key = .ok child) (rest : List String) (value : Value) :
    document.setInPlace (key :: rest) value =
      ((child.setInPlace rest value).1.mapError (·.under key),
        document.put key (child.setInPlace rest value).2) := by
  rw [setInPlace, h]

/-- Only a write that succeeds gives its document away. -/
theorem set_eq (document : Value) (path : List String) (value : Value) :
    document.set path value =
      (document.setInPlace path value).1.map fun _ => (document.setInPlace path value).2 := by
  induction path generalizing document with
  | nil => rw [set_nil, setInPlace_nil, Except.map]
  | cons key rest ih =>
      rw [set_cons]
      cases henter : document.enter key with
      | error fault =>
          rw [setInPlace_of_enter_eq_error henter]
          rfl
      | ok child =>
          simp only [setInPlace_of_enter_eq_ok henter, ih child]
          cases (child.setInPlace rest value).1 <;> rfl

theorem set_eq_ok_iff {document value written : Value} {path : List String} :
    document.set path value = .ok written ↔ document.setInPlace path value = (.ok (), written) := by
  rw [set_eq, Prod.ext_iff]
  cases (document.setInPlace path value).1 <;> simp [Except.map]

end Remap.Value
