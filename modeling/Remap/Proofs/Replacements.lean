import Remap.Proofs.DotPaths

/-!
Escapes read by replacement.  A part of a dot path can be decoded in two sweeps over its text, one
for each escape, dots first: the first sweep neither makes an escape for the second one nor breaks
one up, so both together do what one decoding from left to right does.
-/

namespace Remap.DotPath

/-- Every tilde with this digit after it replaced by what the two stand for, from left to right. -/
def replaceEscape (digit meaning : Char) : List Char → List Char
  | c :: d :: rest =>
      if c = '~' ∧ d = digit then meaning :: replaceEscape digit meaning rest
      else c :: replaceEscape digit meaning (d :: rest)
  | text => text

section

variable {digit meaning c : Char} {rest : List Char}

theorem replaceEscape_escape (digit meaning : Char) (rest : List Char) :
    replaceEscape digit meaning ('~' :: digit :: rest) =
      meaning :: replaceEscape digit meaning rest := by
  rw [replaceEscape, if_pos ⟨rfl, rfl⟩]

theorem replaceEscape_cons (h : ¬(c = '~' ∧ rest.head? = some digit)) (meaning : Char) :
    replaceEscape digit meaning (c :: rest) = c :: replaceEscape digit meaning rest := by
  cases rest with
  | nil => rfl
  | cons d rest =>
      rw [List.head?_cons, Option.some.injEq] at h
      rw [replaceEscape, if_neg h]

/-- A sweep puts no character but the meaning of its escape in front of a text. -/
theorem head?_of_replaceEscape {text : List Char}
    (h : (replaceEscape digit meaning text).head? = some c) (hne : c ≠ meaning) :
    text.head? = some c := by
  cases text with
  | nil => cases h
  | cons first rest =>
      by_cases hescape : first = '~' ∧ rest.head? = some digit
      · obtain ⟨rfl, hdigit⟩ := hescape
        obtain ⟨rest, rfl⟩ := List.head?_eq_some_iff.mp hdigit
        rw [replaceEscape_escape] at h
        exact absurd (Option.some.inj h).symm hne
      · rw [replaceEscape_cons hescape] at h
        exact h

end

/-- The dots are replaced first.  What is left in front of a text after that is a zero only if it
was one before, so the second sweep finds the escapes that the text has and no others. -/
theorem replaceEscape_replaceEscape (text : List Char) :
    replaceEscape '0' '~' (replaceEscape '1' '.' text) = unescape text := by
  fun_induction unescape text with
  | case1 rest ih =>
      rw [replaceEscape_escape, replaceEscape_cons (by simp), ih]
  | case2 rest ih =>
      have hkept : replaceEscape '1' '.' ('~' :: '0' :: rest) =
          '~' :: '0' :: replaceEscape '1' '.' rest := by
        rw [replaceEscape_cons (by simp), replaceEscape_cons (by simp)]
      rw [hkept, replaceEscape_escape, ih]
  | case3 c rest hdot htilde ih =>
      have hfirst : ¬(c = '~' ∧ rest.head? = some '1') := by
        rintro ⟨rfl, hhead⟩
        obtain ⟨rest, rfl⟩ := List.head?_eq_some_iff.mp hhead
        exact hdot rest rfl rfl
      have hsecond : ¬(c = '~' ∧ (replaceEscape '1' '.' rest).head? = some '0') := by
        rintro ⟨rfl, hhead⟩
        have hzero := head?_of_replaceEscape hhead (by decide)
        obtain ⟨rest, rfl⟩ := List.head?_eq_some_iff.mp hzero
        exact htilde rest rfl rfl
      rw [replaceEscape_cons hfirst, replaceEscape_cons hsecond, ih]
  | case4 => rfl

/-- No escape reaches over a tilde, so decoding can be taken up again at any of them. -/
theorem unescape_append_tilde (before after : List Char) :
    unescape (before ++ '~' :: after) = unescape before ++ unescape ('~' :: after) := by
  fun_induction unescape before with
  | case1 rest ih => rw [List.cons_append, List.cons_append, unescape, ih, List.cons_append]
  | case2 rest ih => rw [List.cons_append, List.cons_append, unescape, ih, List.cons_append]
  | case3 c rest hdot htilde ih =>
      rw [List.cons_append, List.cons_append, ← ih, unescape]
      · rintro later rfl hlater
        cases rest with
        | nil => cases hlater
        | cons d rest =>
            obtain ⟨rfl, -⟩ := List.cons.inj hlater
            exact hdot rest rfl rfl
      · rintro later rfl hlater
        cases rest with
        | nil => cases hlater
        | cons d rest =>
            obtain ⟨rfl, -⟩ := List.cons.inj hlater
            exact htilde rest rfl rfl
  | case4 => rfl

/-- Every list of keys but the empty one has a text that names it.  A text names one key more than
it has dots, and the keys are the parts between the dots, each with its escapes for dots replaced
first and those for tildes then; that is the decoding of the part from left to right.  So a tilde
that was escaped begins no escape: whatever stands around `~01`, it is read as `~1`. -/
theorem keys_law :
    (∀ path : List String, path ≠ [] → keys (ofKeys path) = path) ∧
    (∀ text : String, (keys text).length = text.toList.count '.' + 1) ∧
    (∀ text : String, keys text = (split '.' text.toList).map fun part =>
      String.ofList (replaceEscape '0' '~' (replaceEscape '1' '.' part))) ∧
    (∀ text : List Char, replaceEscape '0' '~' (replaceEscape '1' '.' text) = unescape text) ∧
    ∀ before after : List Char,
      unescape (before ++ '~' :: '0' :: '1' :: after) =
        unescape before ++ '~' :: '1' :: unescape after := by
  refine ⟨fun path => keys_ofKeys, fun text => ?_, fun text => ?_, replaceEscape_replaceEscape, ?_⟩
  · rw [keys, List.length_map, length_split]
  · simp only [replaceEscape_replaceEscape]
    rfl
  · intro before after
    rw [unescape_append_tilde, unescape, unescape]
    · simp
    · simp

theorem keys_law_of_escapedEscapes :
    ["a.b", "~1", "", "~."] ≠ [] ∧
      ofKeys ["a.b", "~1", "", "~."] = "a~1b.~01..~0~1" ∧
      keys "a~1b.~01..~0~1" = ["a.b", "~1", "", "~."] := by
  have htext : ofKeys ["a.b", "~1", "", "~."] = "a~1b.~01..~0~1" := by decide +kernel
  have hkeys := keys_law.1 ["a.b", "~1", "", "~."] (by decide)
  rw [htext] at hkeys
  exact ⟨by decide, htext, hkeys⟩

end Remap.DotPath
