import Remap.Proofs.Lines

/-!
Locations of offsets.  The table of a text has the beginnings of its lines in ascending order, so
there is one place in it up to which the entries do not exceed an offset.  The line that is found
there is the one that counting line feeds gives, later offsets have later locations, and text above
moves locations down.
-/

namespace Remap

/-- On an earlier line, or further to the left on the same one. -/
def Location.Precedes (first second : Location) : Prop :=
  first.line < second.line ∨ first.line = second.line ∧ first.column < second.column

namespace LineIndex

/-- Where the lines begin, the first line too. -/
def table (index : LineIndex) : List Nat :=
  0 :: index.starts

/-- The location is found in the table: the entries up to that of its line, and no others, do not
exceed the offset, and the column is what the offset has over the entry of the line. -/
structure Finds (index : LineIndex) (offset : Nat) (location : Location) : Prop where
  reached {position start : Nat} : index.table[position]? = some start →
    (start ≤ offset ↔ position < location.line)
  column : ∃ start, index.table[location.line - 1]? = some start ∧
    start + location.column = offset

theorem pairwise_startsFrom (offset : Nat) (text : List Char) :
    (startsFrom offset text).Pairwise (· < ·) := by
  induction text generalizing offset with
  | nil => exact .nil
  | cons c rest ih =>
      rw [startsFrom]
      split
      · exact .cons (fun start hstart => (lt_of_mem_startsFrom hstart).1) (ih (offset + 1))
      · exact ih (offset + 1)

theorem pairwise_table_ofText (text : List Char) : (ofText text).table.Pairwise (· < ·) :=
  .cons (fun _ hstart => (lt_of_mem_startsFrom hstart).1) (pairwise_startsFrom 0 text)

/-- In ascending entries those that do not exceed an offset come first. -/
theorem le_iff_lt_length_takeWhile {entries : List Nat} (h : entries.Pairwise (· < ·))
    {offset position entry : Nat} (hentry : entries[position]? = some entry) :
    entry ≤ offset ↔ position < (entries.takeWhile (· ≤ offset)).length := by
  induction entries generalizing position with
  | nil => cases hentry
  | cons first rest ih =>
      obtain ⟨hfirst, hrest⟩ := List.pairwise_cons.mp h
      by_cases hreached : first ≤ offset
      · rw [List.takeWhile_cons_of_pos (by simpa using hreached), List.length_cons]
        cases position with
        | zero =>
            cases hentry
            exact iff_of_true hreached (Nat.succ_pos _)
        | succ position => exact (ih hrest hentry).trans Nat.succ_lt_succ_iff.symm
      · rw [List.takeWhile_cons_of_neg (by simpa using hreached)]
        refine iff_of_false ?_ (Nat.not_lt_zero position)
        cases position with
        | zero =>
            cases hentry
            exact hreached
        | succ position =>
            have hlt := hfirst entry (List.mem_of_getElem? hentry)
            omega

theorem getElem?_length_takeWhile (p : Nat → Bool) (first : Nat) (rest : List Nat) :
    (first :: rest)[(rest.takeWhile p).length]? = some ((rest.takeWhile p).getLastD first) := by
  induction rest generalizing first with
  | nil => rfl
  | cons next rest ih =>
      by_cases hnext : p next = true
      · rw [List.takeWhile_cons_of_pos hnext, List.length_cons, List.getElem?_cons_succ, ih,
          List.getLastD_cons]
      · rw [List.takeWhile_cons_of_neg hnext]
        rfl

theorem finds_locate (text : List Char) (offset : Nat) :
    (ofText text).Finds offset ((ofText text).locate offset) where
  reached hstart := le_iff_lt_length_takeWhile (pairwise_table_ofText text) hstart
  column := by
    have hle : ((ofText text).starts.takeWhile (· ≤ offset)).getLastD 0 ≤ offset := by
      have hlast : ((ofText text).starts.takeWhile (· ≤ offset)).getLastD 0 ∈
          0 :: (ofText text).starts.takeWhile (· ≤ offset) := List.getLastD_mem_cons
      rcases List.mem_cons.mp hlast with hzero | hmem
      · rw [hzero]
        exact Nat.zero_le offset
      · simpa using List.all_eq_true.mp List.all_takeWhile _ hmem
    exact ⟨_, getElem?_length_takeWhile _ 0 _, Nat.add_sub_cancel' hle⟩

/-- Within a line the columns are as far apart as the offsets. -/
theorem Finds.column_add {index : LineIndex} {offset other : Nat} {location later : Location}
    (h : index.Finds offset location) (hlater : index.Finds other later)
    (hline : location.line = later.line) : location.column + other = later.column + offset := by
  obtain ⟨start, hstart, hoffset⟩ := h.column
  obtain ⟨start', hstart', hother⟩ := hlater.column
  rw [hline, hstart'] at hstart
  cases hstart
  omega

theorem locate_precedes (text : List Char) {offset other : Nat} (h : offset < other) :
    ((ofText text).locate offset).Precedes ((ofText text).locate other) := by
  have hle : ((ofText text).locate offset).line ≤ ((ofText text).locate other).line := by
    rw [line_locate, line_locate]
    exact lineAt_mono (Nat.le_of_lt h)
  rcases Nat.lt_or_eq_of_le hle with hlt | heq
  · exact .inl hlt
  · have hcolumns := (finds_locate text offset).column_add (finds_locate text other) heq
    exact .inr ⟨heq, by omega⟩

/-- Past the end the last line goes on. -/
theorem locate_length_add (text : List Char) (past : Nat) :
    (ofText text).locate (text.length + past) =
      ⟨(ofText text).lineCount, columnAt text text.length + past⟩ := by
  have hlast (offset : Nat) (h : text.length ≤ offset) :
      ((ofText text).locate offset).line = (ofText text).lineCount := by
    rw [line_locate, lineAt, List.take_of_length_le h, lineCount_ofText]
  have hpast := hlast (text.length + past) (Nat.le_add_right _ _)
  have hcolumns := (finds_locate text (text.length + past)).column_add
    (finds_locate text text.length) (hpast.trans (hlast text.length (Nat.le_refl _)).symm)
  rw [locate_of_le (Nat.le_refl text.length)] at hcolumns
  have hcolumn : ((ofText text).locate (text.length + past)).column =
      columnAt text text.length + past := by
    dsimp only at hcolumns
    omega
  rw [← hpast, ← hcolumn]

/-- Lines above a text move all of its locations down by their number. -/
theorem locate_below {above : List Char} (h : EndsLines above) (text : List Char) (offset : Nat) :
    (ofText (above ++ text)).locate (above.length + offset) =
      ⟨((ofText text).locate offset).line + above.count '\n',
        ((ofText text).locate offset).column⟩ := by
  by_cases hoffset : offset ≤ text.length
  · have hwhole : above.length + offset ≤ (above ++ text).length := by
      rw [List.length_append]
      omega
    rw [locate_of_le hwhole, locate_of_le hoffset, lineAt_append, columnAt_append h, Nat.add_comm]
  · obtain ⟨past, rfl⟩ := Nat.exists_eq_add_of_le (Nat.le_of_not_le hoffset)
    have hcolumn := columnAt_append h text text.length
    rw [← List.length_append] at hcolumn
    rw [← Nat.add_assoc, ← List.length_append, locate_length_add, locate_length_add, hcolumn,
      lineCount_ofText, lineCount_ofText, List.count_append, Location.mk.injEq]
    refine ⟨?_, rfl⟩
    rw [Nat.add_assoc, Nat.add_comm]

/-- Up to the end of a text an offset is located by counting: its line by the line feeds before it,
its column by the characters since the last of them.  The table of line beginnings ascends
strictly and begins with 0; the location is the one place in it between the entries that do not
exceed the offset and those that do, and the column is what the offset exceeds the last of them by.
Different offsets have different locations, in their order; past the end only the column grows; and
under a text that is empty or ends with a line feed every location stands further down by the line
feeds of that text. -/
theorem locate_law (text : List Char) :
    (∀ offset ≤ text.length,
      (ofText text).locate offset = ⟨lineAt text offset, columnAt text offset⟩) ∧
    ((ofText text).table.head? = some 0 ∧ (ofText text).table.Pairwise (· < ·)) ∧
    (∀ offset, (ofText text).Finds offset ((ofText text).locate offset)) ∧
    (∀ offset other, offset < other →
      ((ofText text).locate offset).Precedes ((ofText text).locate other)) ∧
    (∀ past, (ofText text).locate (text.length + past) =
      ⟨(ofText text).lineCount, columnAt text text.length + past⟩) ∧
    ∀ above, EndsLines above → ∀ offset,
      (ofText (above ++ text)).locate (above.length + offset) =
        ⟨((ofText text).locate offset).line + above.count '\n',
          ((ofText text).locate offset).column⟩ :=
  ⟨fun _ => locate_of_le, ⟨rfl, pairwise_table_ofText text⟩, finds_locate text,
    fun _ _ => locate_precedes text, locate_length_add text,
    fun _ habove => locate_below habove text⟩

/-- Offsets at a line feed, on an empty line, at the end and past it. -/
theorem locate_law_of_emptyLine :
    (ofText "a\n\nbé".toList).locate 1 = ⟨1, 1⟩ ∧
      ((ofText "a\n\nbé".toList).locate 1).Precedes ((ofText "a\n\nbé".toList).locate 2) ∧
      (ofText "a\n\nbé".toList).locate 7 = ⟨3, 4⟩ ∧ EndsLines "# h\n".toList ∧
      (ofText ("# h\n".toList ++ "a\n\nbé".toList)).locate (4 + 5) = ⟨4, 2⟩ := by
  obtain ⟨hcount, -, -, horder, hpast, habove⟩ := locate_law "a\n\nbé".toList
  have hends : EndsLines "# h\n".toList := by simp [EndsLines]
  exact ⟨hcount 1 (by decide), horder 1 2 (by decide), hpast 2, hends, habove _ hends 5⟩

end LineIndex

end Remap
