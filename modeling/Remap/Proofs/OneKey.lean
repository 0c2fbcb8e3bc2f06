import Remap.Document.InPlace

/-!
One key of a document.  Reading a key, going into it and putting a value there agree with one
another, and at two keys that address different places they do not interfere.  What holds of paths
follows from this key by key.
-/

namespace Remap

/-- The keys address different places in every document: they differ, and they are not two texts of
one index, as `0` and `00` are, which are two fields of an object and one item of an array. -/
structure KeysApart (first second : String) : Prop where
  ne : first ≠ second
  index_ne {index : Nat} : arrayIndex? first = some index → arrayIndex? second ≠ some index

theorem KeysApart.symm {first second : String} (h : KeysApart first second) :
    KeysApart second first where
  ne := Ne.symm h.ne
  index_ne hsecond hfirst := h.index_ne hfirst hsecond

/-- What is wrong with a key that addresses no item of an array of this size. -/
def PathFault.ofKey (key : String) (size : Nat) : PathFault :=
  match arrayIndex? key with
  | none => .notAnIndex key
  | some index => .outOfBounds index size

namespace Value

variable {document child value later : Value} {key other : String} {fault : PathFault}

/-- The size of an array. -/
def size? : Value → Option Nat
  | .array items => some items.length
  | _ => none

/-- Going into a key takes the value that is there.  Where none is, an array refuses the key, and
everything else has an empty object there. -/
theorem enter_eq (document : Value) (key : String) :
    document.enter key =
      match document.child? key, document.size? with
      | some child, _ => .ok child
      | none, some size => .error (.ofKey key size)
      | none, none => .ok (.object []) := by
  cases document with
  | array items =>
      simp only [enter, child?, size?, arraySlot, PathFault.ofKey]
      cases arrayIndex? key with
      | none => rfl
      | some index =>
          by_cases hlt : index < items.length
          · simp [hlt, Except.map]
          · simp [hlt, Except.map]
  | object fields =>
      simp only [enter, child?, size?]
      cases Entries.find? key fields <;> rfl
  | null | bool _ | number _ | string _ => rfl

theorem enter_of_child? (h : document.child? key = some child) : document.enter key = .ok child := by
  rw [enter_eq, h]

/-- A write goes on in the value at the key, or in an empty object that it makes there. -/
theorem enter_cases (h : document.enter key = .ok child) :
    document.child? key = some child ∨
      document.child? key = none ∧ document.size? = none ∧ child = .object [] := by
  rw [enter_eq] at h
  split at h
  · rename_i found hfound
    cases h
    exact .inl hfound
  · cases h
  · rename_i hmissing hsize
    cases h
    exact .inr ⟨hmissing, hsize, rfl⟩

/-- Only an array refuses a key. -/
theorem enter_eq_error_iff :
    document.enter key = .error fault ↔
      ∃ items, document = .array items ∧ document.child? key = none ∧
        fault = .ofKey key items.length := by
  cases document with
  | array items =>
      rw [enter_eq]
      cases (array items).child? key <;> simp [size?, eq_comm]
  | object _ | null | bool _ | number _ | string _ => simp [enter]

theorem child?_array_eq_none_iff {items : List Value} :
    (array items).child? key = none ↔ ∀ index < items.length, arrayIndex? key ≠ some index := by
  rw [child?]
  cases hindex : arrayIndex? key with
  | none => simp
  | some index =>
      simp only [Option.bind_some, List.getElem?_eq_none_iff, ne_eq, Option.some.injEq]
      constructor
      · intro hge other hother heq
        omega
      · intro hne
        exact Nat.not_lt.mp fun hlt => hne index hlt rfl

@[simp]
theorem size?_put (document : Value) (key : String) (value : Value) :
    (document.put key value).size? = document.size? := by
  cases document with
  | array items =>
      rw [put, size?, size?]
      cases arrayIndex? key <;> simp
  | object _ | null | bool _ | number _ | string _ => rfl

/-- What is put at a key that lets a write in is found there. -/
theorem child?_put (h : document.enter key = .ok child) (value : Value) :
    (document.put key value).child? key = some value := by
  cases document with
  | array items =>
      rcases enter_cases h with hchild | ⟨-, hsize, -⟩
      · obtain ⟨index, hindex, hitem⟩ := Option.bind_eq_some_iff.mp hchild
        have hlt : index < items.length := (List.getElem?_eq_some_iff.mp hitem).1
        simp [put, child?, hindex, hlt]
      · cases hsize
  | object fields => exact Entries.find?_insert_self key value fields
  | null | bool _ | number _ | string _ => exact Entries.find?_insert_self key value []

/-- Putting back what is there changes nothing. -/
theorem put_of_child? (h : document.child? key = some child) : document.put key child = document := by
  cases document with
  | array items =>
      obtain ⟨index, hindex, hitem⟩ := Option.bind_eq_some_iff.mp h
      obtain ⟨hlt, rfl⟩ := List.getElem?_eq_some_iff.mp hitem
      simp [put, hindex]
  | object fields => rw [put, Entries.insert_of_find? h]
  | null | bool _ | number _ | string _ => cases h

/-- Of two values put at a key the later one counts. -/
@[simp]
theorem put_put (document : Value) (key : String) (value later : Value) :
    (document.put key value).put key later = document.put key later := by
  cases document with
  | array items =>
      simp only [put]
      cases arrayIndex? key with
      | none => rfl
      | some index => simp
  | object fields => rw [put, put, Entries.insert_insert_self, put]
  | null | bool _ | number _ | string _ =>
      exact congrArg object (Entries.insert_insert_self key value later [])

section

variable (h : KeysApart key other)

include h

theorem child?_put_of_apart (document value : Value) :
    (document.put key value).child? other = document.child? other := by
  cases document with
  | array items =>
      simp only [put, child?]
      cases hkey : arrayIndex? key with
      | none => rfl
      | some index =>
          cases hother : arrayIndex? other with
          | none => rfl
          | some position =>
              have hne : index ≠ position := fun heq => h.index_ne hkey (heq ▸ hother)
              simp [List.getElem?_set_ne hne]
  | object fields => exact Entries.find?_insert_of_ne (Ne.symm h.ne) value fields
  | null | bool _ | number _ | string _ => exact Entries.find?_insert_of_ne (Ne.symm h.ne) value []

theorem enter_put_of_apart (document value : Value) :
    (document.put key value).enter other = document.enter other := by
  rw [enter_eq, child?_put_of_apart h, size?_put, ← enter_eq]

theorem put_comm (document value later : Value) :
    (document.put key value).put other later = (document.put other later).put key value := by
  cases document with
  | array items =>
      simp only [put]
      cases hkey : arrayIndex? key with
      | none => rfl
      | some index =>
          cases hother : arrayIndex? other with
          | none => rfl
          | some position =>
              have hne : index ≠ position := fun heq => h.index_ne hkey (heq ▸ hother)
              simp [List.set_comm _ _ hne]
  | object fields => exact congrArg object (Entries.insert_comm h.ne value later fields)
  | null | bool _ | number _ | string _ =>
      exact congrArg object (Entries.insert_comm h.ne value later [])

end

end Value

end Remap
