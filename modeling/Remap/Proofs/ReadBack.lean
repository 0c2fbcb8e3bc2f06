import Remap.Proofs.PrintedTokens

/-!
Printed documents are read back.  A document without doubles is read from its text as it was, up to
what cannot belong to it, if it nests no deeper than the reader may go, and otherwise it is not read.
The items of arrays and the fields of objects are read by loops of one kind.
-/

namespace Remap

namespace Value

mutual

/-- No number in the value is a double. -/
def Exact : Value → Prop
  | .number (.real _) => False
  | .array items => ExactItems items
  | .object fields => ExactFields fields
  | _ => True

def ExactItems : List Value → Prop
  | [] => True
  | item :: rest => item.Exact ∧ ExactItems rest

def ExactFields : List (String × Value) → Prop
  | [] => True
  | (_, field) :: rest => field.Exact ∧ ExactFields rest

end

end Value

namespace Entries

variable {α : Type}

/-- An entry whose key comes after all others is added at the end. -/
theorem insert_of_forall_lt {key : String} {entries : Entries α} (value : α)
    (h : ∀ pair ∈ entries, pair.1 < key) :
    insert key value entries = entries ++ [(key, value)] := by
  induction entries with
  | nil => rfl
  | cons head rest ih =>
      rw [List.forall_mem_cons] at h
      have hlt : ¬key < head.1 := fun hkey => String.lt_irrefl key (String.lt_trans hkey h.1)
      have hne : key ≠ head.1 := fun heq => String.lt_irrefl key (heq ▸ h.1)
      rw [insert, if_neg hlt, if_neg hne, ih h.2, List.cons_append]

/-- Sorted entries stay as they are when they are listed again. -/
theorem Sorted.ofList_eq {entries : Entries α} (h : Sorted entries) : ofList entries = entries := by
  have hfold : ∀ before later : Entries α, Sorted (before ++ later) →
      later.foldl (fun entries pair => Entries.insert pair.1 pair.2 entries) before = before ++ later := by
    intro before later hsorted
    induction later generalizing before with
    | nil => rw [List.foldl_nil, List.append_nil]
    | cons pair later ih =>
        have hpair : ∀ earlier ∈ before, earlier.1 < pair.1 := fun earlier hearlier =>
          (List.pairwise_append.mp hsorted).2.2 earlier hearlier pair List.mem_cons_self
        rw [List.append_cons] at hsorted ⊢
        rw [List.foldl_cons, insert_of_forall_lt pair.2 hpair]
        exact ih _ hsorted
  exact hfold [] entries h

end Entries

namespace Json

open Remap.Parser
open Remap.Expr.Grammar (isNumberStart)

variable {rest : List Char}

theorem skipBlanks_of_opens (h : Opens (!isBlankChar ·) rest) : skipBlanks rest = rest := by
  cases rest with
  | nil => rfl
  | cons c rest => exact List.dropWhile_cons_of_neg (by simpa using h)

theorem skipBlanks_cons {c : Char} (h : isBlankChar c = false) (text : List Char) :
    skipBlanks (c :: text) = c :: text :=
  skipBlanks_of_opens (Opens.cons_iff.mpr (by rw [h]; rfl))

theorem opens_integerText (value : Int) (rest : List Char) :
    Opens isNumberStart (integerText value ++ rest) := by
  rw [integerText]
  split
  · rw [List.cons_append, Opens.cons_iff]
    rfl
  · apply (opens_toDigits value.natAbs rest).mono
    intro c hc
    rw [isNumberStart, hc, Bool.or_true]

theorem integerText_ne_nil (value : Int) : integerText value ≠ [] := by
  rw [integerText]
  split
  · exact List.cons_ne_nil _ _
  · exact Nat.toDigits_ne_nil

theorem isBlankChar_of_isNumberStart {c : Char} (h : isNumberStart c = true) :
    isBlankChar c = false := by
  simp only [isBlankChar, Bool.or_eq_false_iff, decide_eq_false_iff_not]
  refine ⟨⟨⟨?_, ?_⟩, ?_⟩, ?_⟩ <;> (rintro rfl; cases h)

/-- What begins like a number is read as one. -/
theorem readValue_number {text : List Char} (h : Opens isNumberStart text) (levels : Nat) :
    readValue levels text = (readNumber text).map fun (n, rest) => (.number n, rest) := by
  have hskip : skipBlanks text = text := by
    apply skipBlanks_of_opens
    exact h.apart fun c => isBlankChar_of_isNumberStart
  rw [readValue]
  simp only [hskip]
  split
  all_goals first | cases Opens.cons_iff.mp h | rfl

theorem readValue_quote (text : List Char) (levels : Nat) (rest : List Char) :
    readValue levels (quote text ++ rest) = some (.string (String.ofList text), rest) := by
  have hquote : quote text ++ rest = '"' :: (text.flatMap escapeChar ++ '"' :: rest) := by
    simp [quote]
  rw [hquote, readValue, skipBlanks_cons (by decide)]
  simp only [readChars_escaped, Option.map_some]

theorem readValue_bracket (levels : Nat) (text : List Char) :
    readValue (levels + 1) ('[' :: text) =
      (readArray (readValue levels) text).map fun (items, rest) => (.array items, rest) := rfl

theorem readValue_brace (levels : Nat) (text : List Char) :
    readValue (levels + 1) ('\x7b' :: text) =
      (readObject (readValue levels) text).map fun (fields, rest) =>
        (.object (Entries.ofList fields), rest) := rfl

/-- No level is left for an array or an object. -/
theorem readValue_zero {c : Char} (h : c = '[' ∨ c = '\x7b') (text : List Char) :
    readValue 0 (c :: text) = none := by
  rcases h with rfl | rfl
  · rfl
  · rfl

/-- No value is printed as nothing, and none begins with a blank or like the end of an array. -/
theorem exists_print_eq_cons : ∀ value : Value, value.Exact →
    ∃ c text, print value = c :: text ∧ isBlankChar c = false ∧ c ≠ ']'
  | .null, _ | .bool true, _ | .bool false, _ | .string _, _ | .array _, _ | .object _, _ =>
      ⟨_, _, rfl, by decide, by decide⟩
  | .number (.real _), hexact => hexact.elim
  | .number (.integer value _ _), _ => by
      have hopens := opens_integerText value []
      rw [List.append_nil] at hopens
      obtain ⟨c, text, htext⟩ := List.exists_cons_of_ne_nil (integerText_ne_nil value)
      rw [htext, Opens.cons_iff] at hopens
      refine ⟨c, text, htext, isBlankChar_of_isNumberStart hopens, ?_⟩
      rintro rfl
      cases hopens

/-- The values of a list of which at least one is still to come, up to the character that closes the
list: the loop over the items of an array and over the fields of an object. -/
def readList {α : Type} (closing : Char) (item : Reader α) : Nat → Reader (List α)
  | 0, _ => none
  | bound + 1, text => do
      let (value, rest) ← item text
      match skipBlanks rest with
      | [] => none
      | c :: rest =>
          if c = ',' then do
            let (values, rest) ← readList closing item bound rest
            return (value :: values, rest)
          else if c = closing then return ([value], rest)
          else none

theorem readItems_eq_readList {α : Type} (item : Reader α) (bound : Nat) :
    readItems item bound = readList ']' item bound := by
  induction bound with
  | zero => rfl
  | succ bound ih =>
      funext text
      rw [readItems, readList]
      cases item text with
      | none => rfl
      | some found =>
          simp only [Option.bind_eq_bind, Option.bind_some, ih]
          rcases skipBlanks found.2 with _ | ⟨c, rest⟩
          · rfl
          · by_cases hcomma : c = ','
            · subst hcomma
              rfl
            · by_cases hclosing : c = ']'
              · subst hclosing
                rfl
              · simp [hcomma, hclosing]

theorem readFields_eq_readList {α : Type} (item : Reader α) (bound : Nat) :
    readFields item bound = readList '\x7d' (readField item) bound := by
  induction bound with
  | zero => rfl
  | succ bound ih =>
      funext text
      rw [readFields, readList]
      cases readField item text with
      | none => rfl
      | some found =>
          simp only [Option.bind_eq_bind, Option.bind_some, ih]
          rcases skipBlanks found.2 with _ | ⟨c, rest⟩
          · rfl
          · by_cases hcomma : c = ','
            · subst hcomma
              rfl
            · by_cases hclosing : c = '\x7d'
              · subst hclosing
                rfl
              · simp [hcomma, hclosing]

/-- What is read where something was printed: the same, if it nests no deeper than is allowed. -/
def readBack {α : Type} (depth levels : Nat) (value : α) (rest : List Char) :
    Option (α × List Char) :=
  if depth ≤ levels then some (value, rest) else none

section

variable {α : Type} {closing : Char} {item : Reader α} {depth depths levels : Nat} {value : α}
  {values : List α} {text more rest : List Char}

theorem readBack_of_le (h : depth ≤ levels) (value : α) (rest : List Char) :
    readBack depth levels value rest = some (value, rest) :=
  if_pos h

theorem readBack_of_lt (h : levels < depth) (value : α) (rest : List Char) :
    readBack depth levels value rest = none :=
  if_neg (Nat.not_le_of_lt h)

/-- What is made of the value is one level deeper. -/
theorem map_readBack {β : Type} (f : α → β) (depth levels : Nat) (value : α) (rest : List Char) :
    ((readBack depth levels value rest).map fun (value, rest) => (f value, rest)) =
      readBack depth levels (f value) rest := by
  rw [readBack, readBack]
  split <;> rfl

theorem readBack_succ (depth levels : Nat) (value : α) (rest : List Char) :
    readBack (depth + 1) (levels + 1) value rest = readBack depth levels value rest := by
  simp only [readBack, Nat.succ_le_succ_iff]

theorem readList_last (hblank : isBlankChar closing = false) (hcomma : closing ≠ ',')
    (hitem : item text = readBack depth levels value (closing :: rest)) (bound : Nat) :
    readList closing item (bound + 1) text = readBack depth levels [value] rest := by
  rw [readList, hitem]
  by_cases h : depth ≤ levels
  · rw [readBack_of_le h, readBack_of_le h]
    simp only [Option.bind_eq_bind, Option.bind_some, skipBlanks_cons hblank, if_neg hcomma,
      ↓reduceIte, Option.pure_def]
  · rw [readBack_of_lt (Nat.lt_of_not_le h), readBack_of_lt (Nat.lt_of_not_le h)]
    rfl

theorem readList_next {bound : Nat}
    (hitem : item text = readBack depth levels value (',' :: more))
    (hmore : readList closing item bound more = readBack depths levels values rest) :
    readList closing item (bound + 1) text =
      readBack (max depth depths) levels (value :: values) rest := by
  rw [readList, hitem]
  by_cases h : depth ≤ levels
  · rw [readBack_of_le h]
    simp only [Option.bind_eq_bind, Option.bind_some, skipBlanks_cons (c := ',') (by decide), hmore,
      ↓reduceIte]
    by_cases hs : depths ≤ levels
    · rw [readBack_of_le hs, readBack_of_le (Nat.max_le.mpr ⟨h, hs⟩)]
      rfl
    · have hlt := Nat.lt_of_not_le hs
      rw [readBack_of_lt hlt, readBack_of_lt (Nat.lt_of_lt_of_le hlt (Nat.le_max_right _ _))]
      rfl
  · have hlt := Nat.lt_of_not_le h
    rw [readBack_of_lt hlt, readBack_of_lt (Nat.lt_of_lt_of_le hlt (Nat.le_max_left _ _))]
    rfl

end

/-- A key and its colon before a value. -/
theorem readField_quote {α : Type} {item : Reader α} {depth levels : Nat} {value : α}
    {text rest : List Char} (hvalue : item text = readBack depth levels value rest) (key : String) :
    readField item (quote key.toList ++ ':' :: text) = readBack depth levels (key, value) rest := by
  have hquote : quote key.toList ++ ':' :: text =
      '"' :: (key.toList.flatMap escapeChar ++ '"' :: ':' :: text) := by
    simp [quote]
  rw [hquote, readField, skipBlanks_cons (by decide)]
  simp only [readChars_escaped, Option.bind_eq_bind, Option.bind_some, String.ofList_toList,
    skipBlanks_cons (show isBlankChar ':' = false by decide), hvalue, ← map_readBack (key, ·)]
  cases readBack depth levels value rest <;> rfl

theorem length_le_printItems (items : List Value) :
    items.length ≤ (printItems items).length + 1 := by
  induction items with
  | nil => exact Nat.zero_le _
  | cons item rest ih =>
      cases rest with
      | nil => exact Nat.le_add_left 1 _
      | cons second more =>
          simp only [printItems, List.length_append, List.length_cons] at ih ⊢
          omega

theorem length_le_printFields (fields : List (String × Value)) :
    fields.length ≤ (printFields fields).length + 1 := by
  induction fields with
  | nil => exact Nat.zero_le _
  | cons field rest ih =>
      cases rest with
      | nil => exact Nat.le_add_left 1 _
      | cons second more =>
          simp only [printFields, List.length_append, List.length_cons] at ih ⊢
          omega

/-- Items begin where the first of them does. -/
theorem readArray_printItems (item : Reader Value) {items : List Value} (hne : items ≠ [])
    (hexact : Value.ExactItems items) (rest : List Char) :
    readArray item (printItems items ++ rest) =
      readList ']' item (printItems items ++ rest).length (printItems items ++ rest) := by
  obtain ⟨first, more, rfl⟩ := List.exists_cons_of_ne_nil hne
  obtain ⟨c, text, htext, hblank, hbracket⟩ := exists_print_eq_cons first hexact.1
  have hprint : ∃ tail, printItems (first :: more) = c :: tail := by
    cases more with
    | nil => exact ⟨text, htext⟩
    | cons second more => exact ⟨_, by rw [printItems, htext, List.cons_append]; simp⟩
  obtain ⟨tail, htail⟩ := hprint
  rw [htail, List.cons_append, readArray, skipBlanks_cons hblank, ← readItems_eq_readList]
  split
  · rename_i heq
    exact absurd (List.cons.inj heq).1 hbracket
  · rfl

theorem readObject_printFields (item : Reader Value) {fields : List (String × Value)}
    (hne : fields ≠ []) (rest : List Char) :
    readObject item (printFields fields ++ rest) =
      readList '\x7d' (readField item) (printFields fields ++ rest).length
        (printFields fields ++ rest) := by
  obtain ⟨⟨key, field⟩, more, rfl⟩ := List.exists_cons_of_ne_nil hne
  have hprint : ∃ tail, printFields ((key, field) :: more) = '"' :: tail := by
    cases more with
    | nil => exact ⟨_, rfl⟩
    | cons second more => exact ⟨_, rfl⟩
  obtain ⟨tail, htail⟩ := hprint
  rw [htail, List.cons_append, readObject, skipBlanks_cons (by decide), ← readFields_eq_readList]
  rfl

mutual

theorem readValue_print : ∀ value : Value, value.Sorted → value.Exact →
    ∀ (levels : Nat) {rest : List Char}, Opens isDelimiter rest →
      readValue levels (print value ++ rest) = readBack value.depth levels value rest
  | .null, _, _, levels, _, _ | .bool true, _, _, levels, _, _ | .bool false, _, _, levels, _, _ =>
      by cases levels <;> rfl
  | .number (.real _), _, hexact, _, _, _ => hexact.elim
  | .number (.integer value lower upper), _, _, levels, rest, hrest => by
      rw [print, numberText, readValue_number (opens_integerText value rest),
        readNumber_integerText lower upper hrest]
      rfl
  | .string text, _, _, levels, rest, _ => by
      rw [print, readValue_quote, String.ofList_toList]
      rfl
  | .array items, hsorted, hexact, levels, rest, hrest => by
      have hprint : print (.array items) ++ rest = '[' :: (printItems items ++ ']' :: rest) := by
        simp [print]
      rw [hprint]
      cases levels with
      | zero =>
        rw [readValue_zero (.inl rfl)]
        rfl
      | succ levels =>
        have hitems : readArray (readValue levels) (printItems items ++ ']' :: rest) =
            readBack (Value.depthItems items) levels items rest := by
          by_cases hne : items = []
          · rw [hne]
            rfl
          · rw [readArray_printItems _ hne hexact]
            apply readItems_print items hne hsorted hexact
            have hlength := length_le_printItems items
            rw [List.length_append, List.length_cons]
            omega
        rw [readValue_bracket, hitems, map_readBack, Value.depth, readBack_succ]
  | .object fields, hsorted, hexact, levels, rest, hrest => by
      have hprint : print (.object fields) ++ rest =
          '\x7b' :: (printFields fields ++ '\x7d' :: rest) := by
        simp [print]
      rw [hprint]
      cases levels with
      | zero =>
        rw [readValue_zero (.inr rfl)]
        rfl
      | succ levels =>
        have hfields : readObject (readValue levels) (printFields fields ++ '\x7d' :: rest) =
            readBack (Value.depthFields fields) levels fields rest := by
          by_cases hne : fields = []
          · rw [hne]
            rfl
          · rw [readObject_printFields _ hne]
            apply readFields_print fields hne hsorted.2 hexact
            have hlength := length_le_printFields fields
            rw [List.length_append, List.length_cons]
            omega
        rw [readValue_brace, hfields, Value.depth, readBack_succ,
          map_readBack fun fields => Value.object (Entries.ofList fields), hsorted.1.ofList_eq]

theorem readItems_print : ∀ items : List Value, items ≠ [] → Value.SortedItems items →
    Value.ExactItems items → ∀ (levels bound : Nat) (rest : List Char), items.length ≤ bound →
      readList ']' (readValue levels) bound (printItems items ++ ']' :: rest) =
        readBack (Value.depthItems items) levels items rest
  | [], h, _, _, _, _, _, _ => absurd rfl h
  | [item], _, hsorted, hexact, levels, bound + 1, rest, _ => by
      have hrest : Opens isDelimiter (']' :: rest) := Opens.cons_iff.mpr (by decide)
      have hitem := readValue_print item hsorted.1 hexact.1 levels hrest
      rw [Value.depthItems, Value.depthItems, Nat.max_zero]
      exact readList_last (by decide) (by decide) hitem bound
  | item :: second :: others, _, hsorted, hexact, levels, bound + 1, rest, hbound => by
      let more := printItems (second :: others) ++ ']' :: rest
      have hrest : Opens isDelimiter (',' :: more) := Opens.cons_iff.mpr (by decide)
      have hitem := readValue_print item hsorted.1 hexact.1 levels hrest
      have hmore := readItems_print (second :: others) (List.cons_ne_nil _ _) hsorted.2 hexact.2
        levels bound rest (Nat.le_of_succ_le_succ hbound)
      have hprint : printItems (item :: second :: others) ++ ']' :: rest =
          print item ++ ',' :: more := by
        simp [printItems, more]
      rw [hprint]
      exact readList_next hitem hmore

theorem readFields_print : ∀ fields : List (String × Value), fields ≠ [] →
    Value.SortedFields fields → Value.ExactFields fields →
    ∀ (levels bound : Nat) (rest : List Char), fields.length ≤ bound →
      readList '\x7d' (readField (readValue levels)) bound (printFields fields ++ '\x7d' :: rest) =
        readBack (Value.depthFields fields) levels fields rest
  | [], h, _, _, _, _, _, _ => absurd rfl h
  | [(key, field)], _, hsorted, hexact, levels, bound + 1, rest, _ => by
      have hrest : Opens isDelimiter ('\x7d' :: rest) := Opens.cons_iff.mpr (by decide)
      have hvalue := readValue_print field hsorted.1 hexact.1 levels hrest
      have hprint : printFields [(key, field)] ++ '\x7d' :: rest =
          quote key.toList ++ ':' :: (print field ++ '\x7d' :: rest) := by
        simp [printFields]
      rw [hprint, Value.depthFields, Value.depthFields, Nat.max_zero]
      exact readList_last (by decide) (by decide) (readField_quote hvalue key) bound
  | (key, field) :: second :: others, _, hsorted, hexact, levels, bound + 1, rest, hbound => by
      let more := printFields (second :: others) ++ '\x7d' :: rest
      have hrest : Opens isDelimiter (',' :: more) := Opens.cons_iff.mpr (by decide)
      have hvalue := readValue_print field hsorted.1 hexact.1 levels hrest
      have hmore := readFields_print (second :: others) (List.cons_ne_nil _ _) hsorted.2 hexact.2
        levels bound rest (Nat.le_of_succ_le_succ hbound)
      have hprint : printFields ((key, field) :: second :: others) ++ '\x7d' :: rest =
          quote key.toList ++ ':' :: (print field ++ ',' :: more) := by
        simp [printFields, more]
      rw [hprint]
      exact readList_next (readField_quote hvalue key) hmore

end

end Json

end Remap
