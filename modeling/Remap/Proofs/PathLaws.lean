import Remap.Proofs.OneKey

/-!
Laws of paths.  Reading and writing at a path are a lens: what was written is read, a write at the
path or above it absorbs an earlier one, and writing back what was read changes nothing.  Each law
follows from the laws of one key by induction on the path.
-/

namespace Remap.Value

variable {document written value found : Value} {key : String} {path rest shorter : List String}

/-- A write succeeds if it can go into its first key and succeeds below. -/
theorem set_cons_eq_ok_iff :
    document.set (key :: rest) value = .ok written ↔
      ∃ child below, document.enter key = .ok child ∧ child.set rest value = .ok below ∧
        written = document.put key below := by
  rw [set_cons]
  cases henter : document.enter key with
  | error fault => simp
  | ok child =>
      cases hbelow : child.set rest value with
      | error error => simp [hbelow]
      | ok below => simp [hbelow, eq_comm]

theorem set_cons_of_ok {child below : Value} (henter : document.enter key = .ok child)
    (hbelow : child.set rest value = .ok below) :
    document.set (key :: rest) value = .ok (document.put key below) :=
  set_cons_eq_ok_iff.mpr ⟨child, below, henter, hbelow, rfl⟩

/-- What was written is read. -/
theorem get?_of_set (h : document.set path value = .ok written) :
    written.get? path = some value := by
  induction path generalizing document written with
  | nil =>
      rw [set_nil] at h
      cases h
      exact get?_nil value
  | cons key rest ih =>
      obtain ⟨child, below, henter, hbelow, rfl⟩ := set_cons_eq_ok_iff.mp h
      rw [get?_cons, child?_put henter]
      exact ih hbelow

/-- Writing back what is read changes nothing. -/
theorem set_of_get? (h : document.get? path = some found) :
    document.set path found = .ok document := by
  induction path generalizing document with
  | nil =>
      rw [get?_nil] at h
      cases h
      exact set_nil _ _
  | cons key rest ih =>
      rw [get?_cons] at h
      obtain ⟨child, hchild, hrest⟩ := Option.bind_eq_some_iff.mp h
      rw [set_cons_of_ok (enter_of_child? hchild) (ih hrest), put_of_child? hchild]

/-- A write at the path of an earlier one, or above it, goes on as if the earlier one had not been,
and leaves nothing of it. -/
theorem set_of_set (h : document.set path value = .ok written) (hshorter : shorter <+: path)
    (later : Value) :
    ∃ final, document.set shorter later = .ok final ∧ written.set shorter later = .ok final := by
  induction shorter generalizing document written path with
  | nil => exact ⟨later, set_nil document later, set_nil written later⟩
  | cons key above ih =>
      obtain ⟨rest, rfl, habove⟩ := List.cons_prefix_iff.mp hshorter
      obtain ⟨child, below, henter, hbelow, rfl⟩ := set_cons_eq_ok_iff.mp h
      obtain ⟨final, hfirst, hsecond⟩ := ih hbelow habove
      have hagain : (document.put key below).enter key = .ok below :=
        enter_of_child? (child?_put henter below)
      refine ⟨document.put key final, set_cons_of_ok henter hfirst, ?_⟩
      rw [set_cons_of_ok hagain hsecond, put_put]

/-- A write that succeeds is read back and gives way to any later write at its path or above, and a
value that is read can be written back. -/
theorem set_lens (document : Value) (path : List String) :
    (∀ value written, document.set path value = .ok written →
        written.get? path = some value ∧
          ∀ shorter, shorter <+: path → ∀ later, ∃ final,
            document.set shorter later = .ok final ∧ written.set shorter later = .ok final) ∧
      ∀ found, document.get? path = some found → document.set path found = .ok document := by
  refine ⟨fun value written hset => ?_, fun found hget => set_of_get? hget⟩
  exact ⟨get?_of_set hset, fun shorter hshorter later => set_of_set hset hshorter later⟩

/-- A path through an object, an item of an array and a scalar that the write replaces. -/
theorem set_lens_of_replacedScalar :
    let document : Value := .object [("items", .array [.null, .bool true])]
    let written : Value := .object [("items", .array [.object [("a", .null)], .bool true])]
    document.set ["items", "00", "a"] .null = .ok written ∧
      written.get? ["items", "00", "a"] = some .null ∧
      written.set ["items", "00"] (.bool false) = document.set ["items", "00"] (.bool false) ∧
      document.set ["items", "1"] (.bool true) = .ok document := by
  intro document written
  have hset : document.set ["items", "00", "a"] .null = .ok written := rfl
  have hfound : document.get? ["items", "1"] = some (.bool true) := rfl
  obtain ⟨hread, habsorbed⟩ := (set_lens document ["items", "00", "a"]).1 .null written hset
  obtain ⟨final, hfirst, hsecond⟩ := habsorbed ["items", "00"] (by decide) (.bool false)
  have hback := (set_lens document ["items", "1"]).2 (.bool true) hfound
  exact ⟨hset, hread, hsecond.trans hfirst.symm, hback⟩

end Remap.Value
