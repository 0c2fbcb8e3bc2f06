import Remap.Proofs.Collisions
import Remap.Proofs.MovedPlans
import Remap.Proofs.Taken

/-!
Outlines joined.  The end of one mapping, a line feed and the space before another one are what
stands between two statements, so two outlines can be put into one that has the items of both.
-/

namespace Remap

variable {ε : Type} {query : Parser ε}

/-- A line feed after the ending of one mapping and before the lead of another. -/
def Ending.join (ending : Ending) (lead : Gap) : Break :=
  let last : LineTail := ⟨ending.gap.indent, ending.comment, .feed⟩
  match ending.gap.lines with
  | [] => ⟨last, lead⟩
  | tail :: lines => ⟨tail, ⟨lines ++ last :: lead.lines, lead.indent⟩⟩

theorem Ending.text_join (ending : Ending) (lead : Gap) :
    (ending.join lead).text = ending.text ++ '\n' :: lead.text := by
  obtain ⟨⟨lines, indent⟩, comment⟩ := ending
  cases lines with
  | nil => simp [join, Break.text, text, Gap.text, LineTail.text, LineEnd.text]
  | cons tail lines => simp [join, Break.text, text, Gap.text, LineTail.text, LineEnd.text]

namespace OutlineBody

/-- The items of one body and then those of another. -/
def append : OutlineBody query → Break → OutlineBody query → OutlineBody query
  | .last item, between, second => .cons item between second
  | .cons item inner rest, between, second => .cons item inner (rest.append between second)

variable (between : Break) {second : OutlineBody query}

theorem text_append : (first : OutlineBody query) →
    (first.append between second).text = first.text ++ (between.text ++ second.text)
  | .last item => rfl
  | .cons item inner rest => by
    rw [append, text, rest.text_append, text, List.append_assoc, List.append_assoc]

theorem names_append : (first : OutlineBody query) →
    (first.append between second).names = first.names ++ second.names
  | .last item => rfl
  | .cons item inner rest => by rw [append, names, rest.names_append, names, List.append_assoc]

theorem items_append (after : Nat) : (first : OutlineBody query) →
    (first.append between second).items after =
      first.items (between.text.length + (second.text.length + after)) ++ second.items after
  | .last item => rfl
  | .cons item inner rest => by
    have hlength : (rest.append between second).text.length + after =
        rest.text.length + (between.text.length + (second.text.length + after)) := by
      rw [text_append between rest, List.length_append, List.length_append]
      omega
    rw [append, items, rest.items_append after, items, hlength, List.cons_append]

theorem starts_append (after : List Char) : (first : OutlineBody query) →
    (first.append between second).starts after =
      first.starts (between.text ++ (second.text ++ after)) ++ second.starts after
  | .last item => rfl
  | .cons item inner rest => by
    have htext : (rest.append between second).text ++ after =
        rest.text ++ (between.text ++ (second.text ++ after)) := by
      simp [text_append between rest]
    rw [append, starts, rest.starts_append after, starts, htext, List.append_assoc]

end OutlineBody

namespace Outline

/-- One mapping, a line feed and another mapping. -/
def join (first second : Outline query) : Outline query where
  lead := first.lead
  body := first.body.append (first.ending.join second.lead) second.body
  ending := second.ending

variable (first second : Outline query)

theorem text_join : (first.join second).text = first.text ++ '\n' :: second.text := by
  simp [join, text, OutlineBody.text_append, Ending.text_join]

theorem names_join : (first.join second).names = first.names ++ second.names :=
  OutlineBody.names_append _ first.body

/-- The items of the outline in the syntax tree of its text. -/
def items (outline : Outline query) : List (Item ε) :=
  outline.body.items outline.ending.text.length

/-- The items of the first mapping have the second one behind them. -/
theorem items_join : (first.join second).items =
    first.body.items (first.ending.text.length + ('\n' :: second.text).length) ++ second.items := by
  have hlength : (first.ending.join second.lead).text.length +
      (second.body.text.length + second.ending.text.length) =
        first.ending.text.length + ('\n' :: second.text).length := by
    simp only [Ending.text_join, text, List.length_append, List.length_cons]
    omega
  rw [items, join, OutlineBody.items_append, hlength, items]

theorem starts_join : (first.join second).starts =
    first.body.starts (first.ending.text ++ '\n' :: second.text) ++ second.starts := by
  have htext : (first.ending.join second.lead).text ++
      (second.body.text ++ second.ending.text) = first.ending.text ++ '\n' :: second.text := by
    simp [Ending.text_join, text]
  rw [starts, join, OutlineBody.starts_append, htext, starts]

end Outline

section

variable {lineOf : Nat → Nat} (more : Nat)

theorem OutlineItem.statement?_add (item : OutlineItem query) (after : Nat) :
    (item.item (after + more)).statement? lineOf =
      (item.item after).statement? fun place => lineOf (place + more) := by
  cases item with
  | map gap name beforeBrace lead body tail => rfl
  | assign assignment => rw [item, item, Item.statement?, Item.statement?, Nat.add_assoc]

/-- More text behind the items is more behind each of their places. -/
theorem OutlineBody.statements_add : (body : OutlineBody query) → (after : Nat) →
    Item.statements lineOf (body.items (after + more)) =
      Item.statements (fun place => lineOf (place + more)) (body.items after)
  | .last item, after => by
    rw [items, items, Item.statements_cons, Item.statements_cons, item.statement?_add]
    rfl
  | .cons item between rest, after => by
    have hafter : between.text.length + (rest.text.length + (after + more)) =
        between.text.length + (rest.text.length + after) + more := by omega
    rw [items, items, Item.statements_cons, Item.statements_cons, hafter, item.statement?_add,
      rest.statements_add]

mutual

theorem OutlineItem.definitions_add : (item : OutlineItem query) → (after : Nat) →
    (item.item (after + more)).definitions lineOf =
      (item.item after).definitions fun place => lineOf (place + more)
  | .assign assignment, after => rfl
  | .map _ name _ _ body tail, after => by
    have hafter : tail.text.length + (after + more + 1) = tail.text.length + (after + 1) + more := by
      omega
    rw [OutlineItem.item, OutlineItem.item, Item.definitions, Item.definitions, hafter, body.statements_add,
      body.definitionsIn_add]

theorem OutlineBody.definitionsIn_add : (body : OutlineBody query) → (after : Nat) →
    Item.definitionsIn lineOf (body.items (after + more)) =
      Item.definitionsIn (fun place => lineOf (place + more)) (body.items after)
  | .last item, after => by
    rw [OutlineBody.items, OutlineBody.items, Item.definitionsIn, Item.definitionsIn,
      item.definitions_add]
    rfl
  | .cons item between rest, after => by
    have hafter : between.text.length + (rest.text.length + (after + more)) =
        between.text.length + (rest.text.length + after) + more := by omega
    rw [OutlineBody.items, OutlineBody.items, Item.definitionsIn, Item.definitionsIn, hafter,
      item.definitions_add, rest.definitionsIn_add]

end

theorem OutlineBody.ofItems_add (body : OutlineBody query) (after : Nat) :
    Plan.ofItems lineOf (body.items (after + more)) =
      Plan.ofItems (fun place => lineOf (place + more)) (body.items after) := by
  rw [Plan.ofItems, body.statements_add, body.definitionsIn_add, Plan.ofItems]

end

mutual

/-- Whatever the lines, the definitions in an item have its names. -/
theorem OutlineItem.names_definitions (lineOf : Nat → Nat) : (item : OutlineItem query) →
    (after : Nat) → (((item.item after).definitions lineOf).map (·.1)).Perm item.names
  | .assign _, _ => .refl _
  | .map _ name _ _ body tail, after => by
    have hbody := body.names_definitions lineOf (tail.text.length + (after + 1))
    rw [OutlineItem.item, Item.definitions, List.map_append, OutlineItem.names]
    exact List.perm_append_comm.trans (hbody.cons name.name)

theorem OutlineBody.names_definitions (lineOf : Nat → Nat) : (body : OutlineBody query) →
    (after : Nat) → ((Item.definitionsIn lineOf (body.items after)).map (·.1)).Perm body.names
  | .last item, after => by
    rw [OutlineBody.items, Item.definitionsIn, Item.definitionsIn, List.append_nil]
    exact item.names_definitions lineOf after
  | .cons item between rest, after => by
    rw [OutlineBody.items, Item.definitionsIn, List.map_append]
    exact (item.names_definitions lineOf _).append (rest.names_definitions lineOf after)

end

end Remap
