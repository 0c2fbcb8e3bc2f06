import Remap.Proofs.OneKey
import Remap.Run.Assign

/-!
Refused writes.  A write in place is refused at exactly one position of its path, where the keys
before it lead to an array that has no item at the key there.  Up to that position the walk only
went through values that were there; below the first object that it makes there is no array, so
nothing has been changed when a key is refused.
-/

namespace Remap

namespace Value

/-- A write at the path is refused at this position: the keys before it lead to an array of this
size, and the key at it is not the text of the index of an item. -/
structure RefusedAt (document : Value) (path : List String) (position : Nat) (key : String)
    (size : Nat) : Prop where
  key_eq : path[position]? = some key
  found : ∃ items, document.get? (path.take position) = some (.array items) ∧ items.length = size
  noItem : ∀ index < size, arrayIndex? key ≠ some index

variable {document child : Value} {key refused : String} {path rest : List String}
  {position other size width : Nat}
  {error : PathError}

/-- Everything below an empty object is made by the walk, which meets no array there. -/
theorem setInPlace_empty (path : List String) (value : Value) :
    ((object []).setInPlace path value).1 = .ok () := by
  induction path with
  | nil => rfl
  | cons key rest ih =>
      have henter : (object []).enter key = .ok (object []) := rfl
      rw [setInPlace_of_enter_eq_ok henter, ih]
      rfl

namespace RefusedAt

theorem zero_iff {items : List Value} (rest : List String) :
    (array items).RefusedAt (key :: rest) 0 key items.length ↔
      (array items).child? key = none := by
  rw [child?_array_eq_none_iff]
  exact ⟨RefusedAt.noItem, fun h => ⟨rfl, ⟨items, rfl, rfl⟩, h⟩⟩

theorem succ_iff (hchild : document.child? key = some child) :
    document.RefusedAt (key :: rest) (position + 1) refused size ↔
      child.RefusedAt rest position refused size := by
  have hget : document.get? ((key :: rest).take (position + 1)) =
      child.get? (rest.take position) := by
    rw [List.take_succ_cons, get?_cons, hchild, Option.bind_some]
  constructor
  · rintro ⟨hkey, ⟨items, hitems, hsize⟩, hnoItem⟩
    exact ⟨hkey, ⟨items, hget ▸ hitems, hsize⟩, hnoItem⟩
  · rintro ⟨hkey, ⟨items, hitems, hsize⟩, hnoItem⟩
    exact ⟨hkey, ⟨items, hget.trans hitems, hsize⟩, hnoItem⟩

/-- What a refused write answers, and the document that it leaves. -/
theorem setInPlace_eq (h : document.RefusedAt path position key size) (value : Value) :
    document.setInPlace path value =
      (.error ⟨path.take (position + 1), .ofKey key size⟩, document) := by
  induction position generalizing document path with
  | zero =>
      obtain ⟨items, hitems, rfl⟩ := h.found
      cases path with
      | nil => cases h.key_eq
      | cons first rest =>
          cases h.key_eq
          rw [List.take_zero, get?_nil] at hitems
          cases hitems
          have henter : (array items).enter key = .error (.ofKey key items.length) :=
            enter_eq_error_iff.mpr ⟨items, rfl, (zero_iff rest).mp h, rfl⟩
          exact setInPlace_of_enter_eq_error henter rest value
  | succ position ih =>
      cases path with
      | nil => cases h.key_eq
      | cons first rest =>
          obtain ⟨items, hitems, -⟩ := h.found
          rw [List.take_succ_cons, get?_cons] at hitems
          obtain ⟨child, hchild, -⟩ := Option.bind_eq_some_iff.mp hitems
          have hrest := ih ((succ_iff hchild).mp h)
          -- the walk puts back a child that the refusal below left as it was
          rw [setInPlace_of_enter_eq_ok (enter_of_child? hchild), hrest, put_of_child? hchild]
          rfl

theorem length_take (h : document.RefusedAt path position key size) :
    (path.take (position + 1)).length = position + 1 := by
  obtain ⟨hlt, -⟩ := List.getElem?_eq_some_iff.mp h.key_eq
  exact List.length_take_of_le hlt

/-- There is one such position, because the answer of the write names the keys up to it. -/
theorem position_unique (h : document.RefusedAt path position key size)
    (hother : document.RefusedAt path other refused width) : other = position := by
  have hanswer := (hother.setInPlace_eq .null).symm.trans (h.setInPlace_eq .null)
  have herror := Except.error.inj (congrArg Prod.fst hanswer)
  have hlength := congrArg (List.length ∘ PathError.walked) herror
  simp only [Function.comp_apply, h.length_take, hother.length_take] at hlength
  exact Nat.succ.inj hlength

end RefusedAt

theorem exists_refusedAt {value : Value} (h : (document.setInPlace path value).1 = .error error) :
    ∃ position key size, document.RefusedAt path position key size := by
  induction path generalizing document error with
  | nil => cases h
  | cons key rest ih =>
      cases henter : document.enter key with
      | error fault =>
          obtain ⟨items, rfl, hmissing, -⟩ := enter_eq_error_iff.mp henter
          exact ⟨0, key, items.length, (RefusedAt.zero_iff rest).mpr hmissing⟩
      | ok child =>
          rw [setInPlace_of_enter_eq_ok henter] at h
          cases hrest : (child.setInPlace rest value).1 with
          | ok done =>
              rw [hrest] at h
              cases h
          | error cause =>
              rcases enter_cases henter with hchild | ⟨-, -, rfl⟩
              · obtain ⟨position, refused, size, hrefused⟩ := ih hrest
                exact ⟨position + 1, refused, size, (RefusedAt.succ_iff hchild).mpr hrefused⟩
              · rw [setInPlace_empty] at hrest
                cases hrest

/-- A write that is refused somewhere leaves the document as it was. -/
theorem setInPlace_snd_of_error {value : Value}
    (h : (document.setInPlace path value).1 = .error error) :
    (document.setInPlace path value).2 = document := by
  obtain ⟨position, key, size, hrefused⟩ := exists_refusedAt h
  rw [hrefused.setInPlace_eq]

end Value

/-- An output document that an assignment brings into being is an empty object, which refuses
nothing; so if a path is refused the document was there before. -/
theorem Target.assignInPlace_snd_of_error {target : Target} {value : Value} {places : Places}
    {error : AssignError} (h : (target.assignInPlace value places).1 = .error error) :
    (target.assignInPlace value places).2 = places := by
  cases target with
  | var name => cases h
  | metadata key =>
      cases key with
      | some key => cases h
      | none => cases value <;> first | rfl | cases h
  | path segments =>
      simp only [assignInPlace] at h ⊢
      cases hwrite : ((places.output.getD (.object [])).setInPlace segments value).1 with
      | ok done =>
          rw [hwrite] at h
          cases h
      | error cause =>
          rw [Value.setInPlace_snd_of_error hwrite]
          cases houtput : places.output with
          | none =>
              rw [houtput, Option.getD_none, Value.setInPlace_empty] at hwrite
              cases hwrite
          | some document => rw [Option.getD_some, ← houtput]

/-- A write in place fails if and only if there is a position of its path at which it is refused,
which is then the only one; it answers the keys up to that position and leaves the document as it
was.  So does an assignment that fails with everything it could have written to, an output document
that is not there yet included, and a run learns of it by the same error. -/
theorem refused_write_changes_nothing (document : Value) (path : List String) (value : Value) :
    ((∃ error after, document.setInPlace path value = (.error error, after)) ↔
        ∃ position key size, document.RefusedAt path position key size) ∧
      (∀ position key size, document.RefusedAt path position key size →
        document.setInPlace path value =
            (.error ⟨path.take (position + 1), .ofKey key size⟩, document) ∧
          ∀ other refused width, document.RefusedAt path other refused width →
            other = position) ∧
      ∀ (target : Target) (places after : Places) (error : AssignError),
        target.assignInPlace value places = (.error error, after) →
          after = places ∧ target.assign value places = .error error := by
  refine ⟨⟨?_, ?_⟩, fun position key size hrefused => ?_, ?_⟩
  · rintro ⟨error, after, hfails⟩
    exact Value.exists_refusedAt (congrArg Prod.fst hfails)
  · rintro ⟨position, key, size, hrefused⟩
    exact ⟨_, _, hrefused.setInPlace_eq value⟩
  · exact ⟨hrefused.setInPlace_eq value, fun _ _ _ hother => hrefused.position_unique hother⟩
  · intro target places after error hfails
    have hafter := Target.assignInPlace_snd_of_error (congrArg Prod.fst hfails)
    have hassign := target.assign_eq value places
    rw [hfails] at hafter hassign
    exact ⟨hafter, hassign⟩

/-- A key past the end of an array, with a key after it that would have made an object. -/
theorem refused_write_changes_nothing_of_outOfBounds :
    let document : Value := .object [("items", .array [.bool true])]
    let path := ["items", "+4", "name"]
    let places : Places := ⟨.empty, .empty, some document⟩
    document.RefusedAt path 1 "+4" 1 ∧
      document.setInPlace path .null = (.error ⟨["items", "+4"], .outOfBounds 4 1⟩, document) ∧
      (Target.path path).assignInPlace .null places =
        (.error (.path ⟨["items", "+4"], .outOfBounds 4 1⟩), places) ∧
      (Target.metadata none).assignInPlace .null .empty = (.error (.notAnObject "null"), .empty) := by
  intro document path places
  have hindex : arrayIndex? "+4" = some 4 := by decide +kernel
  have hrefused : document.RefusedAt path 1 "+4" 1 := by
    refine ⟨rfl, ⟨[.bool true], rfl, rfl⟩, fun index hlt => ?_⟩
    rw [hindex, ne_eq, Option.some.injEq]
    omega
  obtain ⟨-, hanswers, hkept⟩ := refused_write_changes_nothing document path .null
  obtain ⟨hanswer, -⟩ := hanswers 1 "+4" 1 hrefused
  have hfault : PathFault.ofKey "+4" 1 = .outOfBounds 4 1 := by rw [PathFault.ofKey, hindex]
  rw [hfault] at hanswer
  have hfails : ((Target.path path).assignInPlace .null places).1 =
      .error (.path ⟨["items", "+4"], .outOfBounds 4 1⟩) := by
    rw [Target.assignInPlace]
    exact congrArg (fun result => result.1.mapError AssignError.path) hanswer
  have hpath := hkept (.path path) places _ _ (Prod.ext hfails rfl)
  have hmetadata := hkept (.metadata none) .empty _ (.notAnObject "null") (Prod.ext rfl rfl)
  exact ⟨hrefused, hanswer, Prod.ext hfails hpath.1, Prod.ext rfl hmetadata.1⟩

end Remap
