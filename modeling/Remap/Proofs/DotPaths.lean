import Remap.Document.DotPath

/-!
Dot paths and their keys.  The written form of a key has no dot in it, so that joining written keys
by dots and splitting the text again are inverse.
-/

namespace Remap.DotPath

variable {separator : Char}

theorem split_of_not_mem {part : List Char} (h : separator ∉ part) :
    split separator part = [part] := by
  induction part with
  | nil => rfl
  | cons c rest ih =>
      simp only [List.mem_cons, not_or] at h
      rw [split, if_neg (Ne.symm h.1), ih h.2]

theorem split_append_separator {part : List Char} (h : separator ∉ part) (rest : List Char) :
    split separator (part ++ separator :: rest) = part :: split separator rest := by
  induction part with
  | nil => simp [split]
  | cons c part ih =>
      simp only [List.mem_cons, not_or] at h
      rw [List.cons_append, split, if_neg (Ne.symm h.1), ih h.2]

/-- Parts without a separator come back from the text that joins them. -/
theorem split_intercalate {parts : List (List Char)} (hne : parts ≠ [])
    (h : ∀ part ∈ parts, separator ∉ part) :
    split separator ([separator].intercalate parts) = parts := by
  induction parts with
  | nil => exact absurd rfl hne
  | cons part rest ih =>
      have hpart : separator ∉ part := h part List.mem_cons_self
      cases rest with
      | nil => rw [List.intercalate_singleton, split_of_not_mem hpart]
      | cons next rest =>
          rw [List.intercalate_cons_cons, List.append_assoc, List.singleton_append,
            split_append_separator hpart,
            ih (by simp) fun other hother => h other (List.mem_cons_of_mem part hother)]

theorem not_mem_of_mem_split {text part : List Char} (h : part ∈ split separator text) :
    separator ∉ part := by
  induction text generalizing part with
  | nil =>
      rw [split, List.mem_singleton] at h
      simp [h]
  | cons c rest ih =>
      rw [split] at h
      by_cases hc : c = separator
      · rw [if_pos hc] at h
        rcases List.mem_cons.mp h with rfl | hrest
        · exact List.not_mem_nil
        · exact ih hrest
      · rw [if_neg hc] at h
        cases hsplit : split separator rest with
        | nil => exact absurd hsplit (split_ne_nil separator rest)
        | cons first parts =>
            rw [hsplit] at h ih
            rcases List.mem_cons.mp h with rfl | hrest
            · have hfirst : separator ∉ first := ih List.mem_cons_self
              simp [Ne.symm hc, hfirst]
            · exact ih (List.mem_cons_of_mem first hrest)

/-- A text with a separator before it is made of its parts with one before each. -/
theorem flatMap_split (separator : Char) (text : List Char) :
    (split separator text).flatMap (separator :: ·) = separator :: text := by
  induction text with
  | nil => rfl
  | cons c rest ih =>
      by_cases hc : c = separator
      · rw [split, if_pos hc, List.flatMap_cons, ih, hc]
        rfl
      · rw [split, if_neg hc]
        cases hsplit : split separator rest with
        | nil => exact absurd hsplit (split_ne_nil separator rest)
        | cons first parts =>
            rw [hsplit, List.flatMap_cons] at ih
            have hrest : first ++ parts.flatMap (separator :: ·) = rest := (List.cons.inj ih).2
            rw [List.flatMap_cons, List.cons_append, List.cons_append, hrest]

theorem not_mem_escape (key : List Char) : '.' ∉ escape key := by
  simp only [escape, List.mem_flatMap, not_exists, not_and]
  intro c _
  split
  · simp
  · split
    · simp
    · rename_i hdot
      simpa using Ne.symm hdot

theorem escape_ne_nil {key : List Char} (h : key ≠ []) : escape key ≠ [] := by
  cases key with
  | nil => exact absurd rfl h
  | cons c rest =>
      simp only [escape, List.flatMap_cons, ne_eq, List.append_eq_nil_iff, not_and]
      intro hc
      split at hc
      · simp at hc
      · split at hc <;> simp at hc

/-- The parts of the text of a list of keys are the written keys. -/
theorem split_ofKeys {path : List String} (hne : path ≠ []) :
    split '.' (ofKeys path).toList = path.map fun key => escape key.toList := by
  rw [ofKeys, String.toList_ofList]
  apply split_intercalate
  · simpa using hne
  · intro part hpart
    obtain ⟨key, -, rfl⟩ := List.mem_map.mp hpart
    exact not_mem_escape key.toList

theorem keys_ofKeys {path : List String} (hne : path ≠ []) : keys (ofKeys path) = path := by
  rw [keys, split_ofKeys hne, List.map_map]
  calc path.map _ = path.map id := List.map_congr_left fun key _ => by simp [unescape_escape]
    _ = path := List.map_id path

/-- A text without dots names one key. -/
theorem keys_of_not_mem {part : List Char} (h : '.' ∉ part) :
    keys (String.ofList part) = [String.ofList (unescape part)] := by
  rw [keys, String.toList_ofList, split_of_not_mem h]
  rfl

theorem keys_escape (key : String) : keys (String.ofList (escape key.toList)) = [key] := by
  rw [keys_of_not_mem (not_mem_escape key.toList), unescape_escape, String.ofList_toList]

theorem firstEmptyPart_go_eq_none {parts : List (List Char)} (h : ∀ part ∈ parts, part ≠ [])
    (offset : Nat) : firstEmptyPart.go offset parts = none := by
  induction parts generalizing offset with
  | nil => rfl
  | cons part rest ih =>
      have hpart : part.isEmpty = false := by
        simpa using h part List.mem_cons_self
      rw [firstEmptyPart.go, hpart]
      exact ih (fun other hother => h other (List.mem_cons_of_mem part hother)) _

theorem firstEmptyPart_ofKeys {path : List String} (hne : path ≠ [])
    (h : ∀ key ∈ path, key ≠ "") : firstEmptyPart (ofKeys path).toList = none := by
  rw [firstEmptyPart, split_ofKeys hne]
  apply firstEmptyPart_go_eq_none
  intro part hpart
  obtain ⟨key, hkey, rfl⟩ := List.mem_map.mp hpart
  apply escape_ne_nil
  simpa using h key hkey

/-- The path text is one or more parts, each of one or more characters of a class. -/
def IsBare (inClass : Char → Bool) (path : String) : Prop :=
  ∀ part ∈ split '.' path.toList, part ≠ [] ∧ part.all inClass = true

namespace IsBare

variable {inClass : Char → Bool} {path : String}

theorem of_mem (h : IsBare inClass path) {c : Char} (hc : c ∈ path.toList) :
    c = '.' ∨ inClass c = true := by
  have hmem : c ∈ (split '.' path.toList).flatMap ('.' :: ·) := by
    rw [flatMap_split]
    exact List.mem_cons_of_mem '.' hc
  obtain ⟨part, hpart, hin⟩ := List.mem_flatMap.mp hmem
  rcases List.mem_cons.mp hin with hdot | hin
  · exact .inl hdot
  · exact .inr (List.all_eq_true.mp (h part hpart).2 c hin)

theorem toList_ne_nil (h : IsBare inClass path) : path.toList ≠ [] := by
  intro hnil
  rw [IsBare, hnil] at h
  exact (h [] List.mem_cons_self).1 rfl

theorem firstEmptyPart_eq_none (h : IsBare inClass path) : firstEmptyPart path.toList = none :=
  firstEmptyPart_go_eq_none (fun part hpart => (h part hpart).1) 0

end IsBare

/-- Keys that are read part by part are the keys of the whole text. -/
theorem flatMap_keys_split (path : String) :
    (split '.' path.toList).flatMap (fun part => keys (String.ofList part)) = keys path := by
  have hparts : (split '.' path.toList).map (fun part => keys (String.ofList part)) =
      (split '.' path.toList).map fun part => [String.ofList (unescape part)] :=
    List.map_congr_left fun part hpart => keys_of_not_mem (not_mem_of_mem_split hpart)
  rw [List.flatMap_def, hparts, ← List.flatMap_def, ← List.map_eq_flatMap]
  rfl

theorem mem_of_mem_unescape {text : List Char} {c : Char} (h : c ∈ unescape text) :
    c ∈ text ∨ c = '.' := by
  fun_induction unescape text with
  | case1 rest ih =>
      rcases List.mem_cons.mp h with rfl | hrest
      · exact .inr rfl
      · exact (ih hrest).imp_left fun hmem => by simp [hmem]
  | case2 rest ih =>
      rcases List.mem_cons.mp h with rfl | hrest
      · exact .inl List.mem_cons_self
      · exact (ih hrest).imp_left fun hmem => by simp [hmem]
  | case3 d rest _ _ ih =>
      rcases List.mem_cons.mp h with rfl | hrest
      · exact .inl List.mem_cons_self
      · exact (ih hrest).imp_left fun hmem => by simp [hmem]
  | case4 => cases h

theorem unescape_ne_nil {text : List Char} (h : text ≠ []) : unescape text ≠ [] := by
  fun_cases unescape text with
  | case1 => simp
  | case2 => simp
  | case3 => simp
  | case4 => exact absurd rfl h

end Remap.DotPath
