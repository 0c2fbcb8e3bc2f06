import Remap.Mapping.Source

/-!
Lines of places.  The line that the index finds for an offset is counted by the line feeds before
it, so that the line of a place depends on the text before the place alone.
-/

namespace Remap

namespace LineIndex

/-- The line starts up to an offset are as many as the line feeds before it. -/
theorem length_takeWhile_startsFrom (text : List Char) (first offset : Nat) :
    ((startsFrom first text).takeWhile (· ≤ offset)).length =
      (text.take (offset - first)).count '\n' := by
  induction text generalizing first with
  | nil => simp [startsFrom]
  | cons c rest ih =>
      by_cases hreached : first + 1 ≤ offset
      · have htake : offset - first = offset - (first + 1) + 1 := by omega
        rw [htake, List.take_succ_cons, List.count_cons, ← ih]
        by_cases hc : c = '\n'
        · simp [startsFrom, hc, hreached]
        · simp [startsFrom, hc]
      · have htake : offset - first = 0 := by omega
        have hrest : offset - (first + 1) = 0 := by omega
        have hih := ih (first + 1)
        rw [hrest, List.take_zero, List.count_nil] at hih
        rw [htake, List.take_zero, List.count_nil]
        by_cases hc : c = '\n'
        · simp [startsFrom, hc, hreached]
        · simpa [startsFrom, hc] using hih

theorem line_locate (text : List Char) (offset : Nat) :
    ((ofText text).locate offset).line = lineAt text offset := by
  have hlength := length_takeWhile_startsFrom text 0 offset
  rw [Nat.sub_zero] at hlength
  rw [locate, ofText, lineAt, hlength]

theorem startsFrom_append (first second : List Char) (offset : Nat) :
    startsFrom offset (first ++ second) =
      startsFrom offset first ++ startsFrom (offset + first.length) second := by
  induction first generalizing offset with
  | nil => rfl
  | cons c rest ih =>
      have hlength : offset + 1 + rest.length = offset + (c :: rest).length := by
        rw [List.length_cons]
        omega
      rw [List.cons_append, startsFrom, startsFrom, ih, hlength]
      split <;> rfl

theorem lt_of_mem_startsFrom {text : List Char} {offset start : Nat}
    (h : start ∈ startsFrom offset text) : offset < start ∧ start ≤ offset + text.length := by
  induction text generalizing offset with
  | nil => cases h
  | cons c rest ih =>
      have hrest (hmem : start ∈ startsFrom (offset + 1) rest) :
          offset < start ∧ start ≤ offset + (c :: rest).length := by
        obtain ⟨hlt, hle⟩ := ih hmem
        rw [List.length_cons]
        omega
      rw [startsFrom] at h
      split at h
      · rcases List.mem_cons.mp h with rfl | hmem
        · rw [List.length_cons]
          omega
        · exact hrest hmem
      · exact hrest h

theorem getLastD_startsFrom_le (text : List Char) :
    (startsFrom 0 text).getLastD 0 ≤ text.length := by
  rw [List.getLastD_eq_getLast?]
  cases hlast : (startsFrom 0 text).getLast? with
  | none => exact Nat.zero_le _
  | some start =>
      have hbound := (lt_of_mem_startsFrom (List.mem_of_getLast? hlast)).2
      rwa [Nat.zero_add] at hbound

/-- The last line of a text holds as many characters as follow its last line feed: by induction on
the text from its end. -/
theorem length_sub_getLastD_startsFrom (text : List Char) :
    text.length - (startsFrom 0 text).getLastD 0 =
      (text.reverse.takeWhile (· ≠ '\n')).length := by
  generalize hreversed : text.reverse = reversed
  induction reversed generalizing text with
  | nil =>
      rw [List.reverse_eq_nil_iff] at hreversed
      subst hreversed
      rfl
  | cons c reversed ih =>
      rw [List.reverse_eq_cons_iff] at hreversed
      subst hreversed
      have hshorter := ih reversed.reverse reversed.reverse_reverse
      have hle := getLastD_startsFrom_le reversed.reverse
      rw [startsFrom_append, List.length_append, List.length_singleton, Nat.zero_add]
      by_cases hc : c = '\n'
      · simp [startsFrom, hc]
      · have hnone : startsFrom reversed.reverse.length [c] = [] := by simp [startsFrom, hc]
        rw [hnone, List.append_nil, List.takeWhile_cons_of_pos (by simpa using hc),
          List.length_cons, ← hshorter]
        omega

/-- The column of a place, like its line, depends on the text before it alone. -/
theorem locate_append (before rest : List Char) :
    (ofText (before ++ rest)).locate before.length =
      ⟨lineAt (before ++ rest) before.length, columnAt (before ++ rest) before.length⟩ := by
  have hpassed : (startsFrom 0 (before ++ rest)).takeWhile (· ≤ before.length) =
      startsFrom 0 before := by
    have hall (start : Nat) (h : start ∈ startsFrom 0 before) :
        decide (start ≤ before.length) = true := by
      have hle := (lt_of_mem_startsFrom h).2
      rw [Nat.zero_add] at hle
      exact decide_eq_true hle
    rw [startsFrom_append, List.takeWhile_append_of_pos hall, Nat.zero_add]
    cases hlater : startsFrom before.length rest with
    | nil => simp
    | cons start starts =>
        have hlt : before.length < start :=
          (lt_of_mem_startsFrom (hlater ▸ List.mem_cons_self)).1
        rw [List.takeWhile_cons_of_neg (by simpa using hlt), List.append_nil]
  have hline := line_locate (before ++ rest) before.length
  have hcolumn : ((ofText (before ++ rest)).locate before.length).column =
      columnAt (before ++ rest) before.length := by
    rw [locate, ofText, columnAt, List.take_left, ← length_sub_getLastD_startsFrom]
    simp only [hpassed]
  rw [← hline, ← hcolumn]

/-- Up to the end of a text a place is found by counting in the text before it. -/
theorem locate_of_le {text : List Char} {offset : Nat} (h : offset ≤ text.length) :
    (ofText text).locate offset = ⟨lineAt text offset, columnAt text offset⟩ := by
  have hlocate := locate_append (text.take offset) (text.drop offset)
  rwa [List.take_append_drop, List.length_take, Nat.min_eq_left h] at hlocate

end LineIndex

theorem lineAt_append (before rest : List Char) (offset : Nat) :
    lineAt (before ++ rest) (before.length + offset) = before.count '\n' + lineAt rest offset := by
  rw [lineAt, lineAt, List.take_length_add_append, List.count_append, Nat.add_assoc]

section

variable {text : List Char} {first second offset : Nat}

theorem lineAt_mono (h : first ≤ second) : lineAt text first ≤ lineAt text second :=
  Nat.succ_le_succ ((List.take_prefix_take_left h).sublist.count_le '\n')

theorem lineAt_succ (h : text[offset]? = some '\n') :
    lineAt text (offset + 1) = lineAt text offset + 1 := by
  rw [lineAt, lineAt, List.take_add_one, h, List.count_append]
  rfl

theorem lineAt_le_lineCount (text : List Char) (offset : Nat) :
    lineAt text offset ≤ (LineIndex.ofText text).lineCount := by
  rw [lineCount_ofText]
  exact Nat.succ_le_succ ((List.take_sublist offset text).count_le '\n')

end

/-- The text is empty or its last line has ended. -/
def EndsLines (text : List Char) : Prop :=
  ∀ c ∈ text.getLast?, c = '\n'

theorem columnAt_append {before : List Char} (h : EndsLines before) (rest : List Char)
    (offset : Nat) : columnAt (before ++ rest) (before.length + offset) = columnAt rest offset := by
  have hbreak : before.reverse.takeWhile (· ≠ '\n') = [] := by
    cases hreversed : before.reverse with
    | nil => rfl
    | cons c reversed =>
        have hlast : c ∈ before.getLast? := by
          rw [← List.head?_reverse, hreversed]
          rfl
        exact List.takeWhile_cons_of_neg (by simp [h c hlast])
  rw [columnAt, columnAt, List.take_length_add_append, List.reverse_append, List.takeWhile_append,
    hbreak, List.append_nil]
  split
  · rename_i hall
    rw [hall]
  · rfl

/-- Text before a place that ends its lines moves the place down. -/
theorem LineIndex.locateRemaining_append {before : List Char} (h : EndsLines before)
    (rest : List Char) {remaining : Nat} (hplace : remaining ≤ rest.length) :
    (ofText (before ++ rest)).locateRemaining (before ++ rest).length remaining =
      ⟨((ofText rest).locateRemaining rest.length remaining).line + before.count '\n',
        ((ofText rest).locateRemaining rest.length remaining).column⟩ := by
  have hoffset : (before ++ rest).length - remaining =
      before.length + (rest.length - remaining) := by
    rw [List.length_append]
    omega
  rw [locateRemaining, locateRemaining, hoffset, locate_of_le (Nat.sub_le _ _), locate_of_le,
    lineAt_append, columnAt_append h, Nat.add_comm]
  rw [List.length_append]
  omega

/-- The line of a place of a source, the place given by the number of characters from it to the
end. -/
def lineOfRemaining (source : List Char) (remaining : Nat) : Nat :=
  ((LineIndex.ofText source).locateRemaining source.length remaining).line

/-- A failure is reported at the line and the column of its place. -/
theorem Plan.parseWith_of_error {ε : Type} {query : Parser ε} {source : List Char}
    {failure : Failure} (h : Item.program query source = .error failure) (file : Option String) :
    parseWith query file source =
      .error ⟨file, lineAt source (source.length - failure.rest.length),
        columnAt source (source.length - failure.rest.length) + 1, failure.cause⟩ := by
  have hlocate : (LineIndex.ofText source).locateRemaining source.length failure.rest.length = _ :=
    LineIndex.locate_of_le (Nat.sub_le source.length failure.rest.length)
  rw [parseWith, h]
  simp only [hlocate]

/-- Every error of a parse is the failure of its program. -/
theorem Plan.exists_failure_of_parseWith {ε : Type} {query : Parser ε} {file : Option String}
    {source : List Char} {error : ParseError} (h : parseWith query file source = .error error) :
    ∃ failure, Item.program query source = .error failure ∧
      error = ⟨file, lineAt source (source.length - failure.rest.length),
        columnAt source (source.length - failure.rest.length) + 1, failure.cause⟩ := by
  cases hprogram : Item.program query source with
  | ok result =>
      rw [parseWith, hprogram] at h
      cases h
  | error failure =>
      rw [parseWith_of_error hprogram] at h
      exact ⟨failure, rfl, (Except.error.inj h).symm⟩

theorem Plan.exists_of_parseWith {ε : Type} {query : Parser ε} {file : Option String}
    {source : List Char} {plan : Plan ε} (h : parseWith query file source = .ok plan) :
    ∃ items rest, Item.program query source = .ok (items, rest) ∧
      plan = .ofItems (lineOfRemaining source) items := by
  rw [parseWith] at h
  split at h
  · rename_i items rest hitems
    cases h
    exact ⟨items, rest, hitems, rfl⟩
  · cases h

theorem lineOfRemaining_append (before rest : List Char) :
    lineOfRemaining (before ++ rest) rest.length = before.count '\n' + 1 := by
  have hoffset : (before ++ rest).length - rest.length = before.length := by
    rw [List.length_append, Nat.add_sub_cancel]
  rw [lineOfRemaining, LineIndex.locateRemaining, LineIndex.line_locate, lineAt, hoffset,
    List.take_left]

/-- Text before a place moves it down by its line feeds. -/
theorem lineOfRemaining_below (before : List Char) {rest : List Char} {remaining : Nat}
    (hplace : remaining ≤ rest.length) :
    lineOfRemaining (before ++ rest) remaining =
      lineOfRemaining rest remaining + before.count '\n' := by
  have hoffset : (before ++ rest).length - remaining =
      before.length + (rest.length - remaining) := by
    rw [List.length_append]
    omega
  rw [lineOfRemaining, lineOfRemaining, LineIndex.locateRemaining, LineIndex.locateRemaining,
    LineIndex.line_locate, LineIndex.line_locate, hoffset, lineAt_append, Nat.add_comm]

/-- Text after a place leaves it where it is. -/
theorem lineOfRemaining_above (source after : List Char) {remaining : Nat}
    (hplace : remaining ≤ source.length) :
    lineOfRemaining (source ++ after) (remaining + after.length) =
      lineOfRemaining source remaining := by
  have hoffset : (source ++ after).length - (remaining + after.length) =
      source.length - remaining := by
    rw [List.length_append]
    omega
  rw [lineOfRemaining, lineOfRemaining, LineIndex.locateRemaining, LineIndex.locateRemaining,
    LineIndex.line_locate, LineIndex.line_locate, hoffset, lineAt, lineAt,
    List.take_append_of_le_length (Nat.sub_le _ _)]

end Remap
