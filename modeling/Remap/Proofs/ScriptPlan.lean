import Remap.Proofs.Lines
import Remap.Proofs.ProgramReading

/-!
The plan of a script.  The tree that the parser finds gives every place as the number of characters
after it; put back into the source, these places are on the lines that the script counts from its
start.
-/

namespace Remap

/-- An item is on the line that the text before it leads to. -/
theorem SpelledItem.statement?_item (item : SpelledItem) {source before after : List Char}
    (h : source = before ++ (item.text ++ after)) :
    (item.item after.length).statement? (lineOfRemaining source) =
      item.statement? (before.count '\n' + 1) := by
  cases item with
  | map gap name beforeBrace lead body tail => rfl
  | assign target value =>
      have hplace : ((SpelledItem.assign target value).text ++ after).length =
          target.text.length + (value.text.length + after.length) := by
        rw [SpelledItem.text, List.length_append, List.length_append, Nat.add_assoc]
      have hline := lineOfRemaining_append before ((SpelledItem.assign target value).text ++ after)
      rw [← h, hplace] at hline
      rw [SpelledItem.item, Item.statement?, hline, SpelledItem.statement?]

/-- The line after a stretch of text, counted from the start of the source or of the stretch. -/
theorem count_append_succ (before stretch : List Char) :
    (before ++ stretch).count '\n' + 1 = before.count '\n' + 1 + stretch.count '\n' := by
  rw [List.count_append]
  omega

theorem SpelledBody.statements_items : (body : SpelledBody) → ∀ {source before after : List Char},
    source = before ++ (body.text ++ after) →
      Item.statements (lineOfRemaining source) (body.items after.length) =
        body.statements (before.count '\n' + 1)
  | .last item, source, before, after, h => by
    rw [SpelledBody.items, Item.statements_cons, item.statement?_item h, SpelledBody.statements]
    exact List.append_nil _
  | .cons item between body, source, before, after, h => by
    have hfirst : source = before ++ (item.text ++ (between.text ++ (body.text ++ after))) := by
      simp [h, SpelledBody.text]
    have hothers : source = (before ++ (item.text ++ between.text)) ++ (body.text ++ after) := by
      simp [h, SpelledBody.text]
    have hitem := item.statement?_item hfirst
    have hbody := body.statements_items hothers
    rw [List.length_append, List.length_append] at hitem
    rw [count_append_succ] at hbody
    rw [SpelledBody.items, Item.statements_cons, hitem, hbody, SpelledBody.statements]

mutual

theorem SpelledItem.definitions_item : (item : SpelledItem) →
    ∀ {source before after : List Char}, source = before ++ (item.text ++ after) →
      (item.item after.length).definitions (lineOfRemaining source) =
        item.definitions (before.count '\n' + 1)
  | .assign _ _, _, _, _, _ => rfl
  | .map gap name beforeBrace lead body tail, source, before, after, h => by
    have hinner : source = (before ++ mapHead gap name beforeBrace lead) ++
        (body.text ++ (tail.text ++ '}' :: after)) := by
      simp [h, SpelledItem.text]
    have hstatements := body.statements_items hinner
    have hdefinitions := body.definitionsIn_items hinner
    rw [List.length_append, List.length_cons, count_append_succ] at hstatements hdefinitions
    rw [SpelledItem.item, Item.definitions, hstatements, hdefinitions, SpelledItem.definitions]

theorem SpelledBody.definitionsIn_items : (body : SpelledBody) →
    ∀ {source before after : List Char}, source = before ++ (body.text ++ after) →
      Item.definitionsIn (lineOfRemaining source) (body.items after.length) =
        body.definitions (before.count '\n' + 1)
  | .last item, source, before, after, h => by
    rw [SpelledBody.items, Item.definitionsIn, item.definitions_item h, SpelledBody.definitions,
      Item.definitionsIn, List.append_nil]
  | .cons item between body, source, before, after, h => by
    have hfirst : source = before ++ (item.text ++ (between.text ++ (body.text ++ after))) := by
      simp [h, SpelledBody.text]
    have hothers : source = (before ++ (item.text ++ between.text)) ++ (body.text ++ after) := by
      simp [h, SpelledBody.text]
    have hitem := item.definitions_item hfirst
    have hbody := body.definitionsIn_items hothers
    rw [List.length_append, List.length_append] at hitem
    rw [count_append_succ] at hbody
    rw [SpelledBody.items, Item.definitionsIn, hitem, hbody, SpelledBody.definitions]

end

mutual

/-- Whatever the line, the definitions in an item have its names. -/
theorem SpelledItem.names_definitions : (item : SpelledItem) → (line : Nat) →
    ((item.definitions line).map (·.1)).Perm item.names
  | .assign _ _, _ => .refl _
  | .map gap name beforeBrace lead body tail, line => by
    have hbody := body.names_definitions (line + (mapHead gap name beforeBrace lead).count '\n')
    rw [SpelledItem.definitions, List.map_append, SpelledItem.names]
    exact List.perm_append_comm.trans (hbody.cons name.name)

theorem SpelledBody.names_definitions : (body : SpelledBody) → (line : Nat) →
    ((body.definitions line).map (·.1)).Perm body.names
  | .last item, line => item.names_definitions line
  | .cons item between body, line => by
    rw [SpelledBody.definitions, List.map_append, SpelledBody.names]
    exact (item.names_definitions line).append (body.names_definitions _)

end

/-- A script whose map names are distinct parses to its own plan: its statements in order, each with
the line on which it begins, and a table of the definitions at all levels and of nothing else. -/
theorem Plan.parse_script (script : Script) (hnames : script.names.Nodup) (file : Option String) :
    ∃ plan, Plan.parse file script.text = .ok plan ∧ plan.statements = script.statements ∧
      ∀ name body, plan.maps.get? name = some body ↔ (name, body) ∈ script.definitions := by
  let items := script.body.items script.ending.text.length
  have hparse : Plan.parse file script.text =
      .ok (Plan.ofItems (lineOfRemaining script.text) items) := by
    rw [Plan.parse, Plan.parseWith, script.program_text hnames]
    rfl
  have hdefinitions : Item.definitionsIn (lineOfRemaining script.text) items = script.definitions :=
    script.body.definitionsIn_items rfl
  have hkeys : (script.definitions.map (·.1)).Nodup :=
    (script.body.names_definitions script.firstLine).nodup_iff.mpr hnames
  refine ⟨_, hparse, script.body.statements_items rfl, ?_⟩
  intro name body
  rw [Plan.ofItems, hdefinitions]
  exact Dictionary.get?_ofList hkeys name body

/-- A definition inside another, comments, both line ends and every kind of target. -/
def nestedScript : Script :=
  let none : Blanks := ⟨[], by decide⟩
  let space : Blanks := ⟨[' '], by decide⟩
  let unpadded : Around := ⟨⟨[], by decide⟩, ⟨[], by decide⟩⟩
  let padded : Around := ⟨⟨[' '], by decide⟩, ⟨['\n'], by decide⟩⟩
  let gap : Blanks1 := ⟨space, by decide⟩
  let feed : LineTail := ⟨none, .none, .feed⟩
  let inner : SpelledBody :=
    .cons (.assign (.var gap (.quoted "x")) ⟨space, none, .array unpadded.before
        [(unpadded, .integer (-1) (by decide) (by decide)), (padded, .string "\"")]⟩)
      ⟨⟨space, some ⟨" c".toList, by decide⟩, .returnFeed⟩, ⟨[feed], none⟩⟩
      (.last (.assign (.path []) ⟨none, space, .call (.var "x") padded.before padded⟩))
  let outer : SpelledBody :=
    .cons (.map gap (.quoted "in\nner") none ⟨[feed], space⟩ inner ⟨[], space⟩)
      ⟨feed, ⟨[], none⟩⟩
      (.last (.assign (.path [⟨"a.b", by decide⟩])
        ⟨space, space, .call (.apply "in\nner") unpadded.before unpadded⟩))
  { lead := ⟨[feed, ⟨none, some ⟨[], by decide⟩, .feed⟩], none⟩
    body := .cons (.map gap (.bare ⟨"outer".toList, by decide⟩ (by decide)) space ⟨[], none⟩ outer
        ⟨[feed], none⟩)
      ⟨feed, ⟨[], none⟩⟩
      (.last (.assign .allMetadata ⟨space, none, .document [⟨"k", by decide, by decide⟩]⟩))
    ending := ⟨⟨[], space⟩, some ⟨"end".toList, by decide⟩⟩ }

theorem Plan.parse_script_nested :
    nestedScript.text =
        ("\n#\nmap outer \x7bmap \"in\\nner\"\x7b\n let \"x\" =[-1, \"\\\"\"\n] # c\r\n\n" ++
          "\"root\"= var( \"x\"\n) \x7d\n\"root.a~1b\" = apply(\"in\\nner\")\n\x7d\n" ++
          "meta =this.k #end").toList ∧
      nestedScript.names.Nodup ∧
      ∃ plan, Plan.parse none nestedScript.text = .ok plan ∧
        plan.statements = [⟨11, .metadata none, .document ["k"]⟩] ∧
        ∀ name body, plan.maps.get? name = some body ↔
          (name, body) ∈
            [("in\nner",
              [⟨4, .var "x", .array [.literal (.number (.integer (-1) (by decide) (by decide))),
                .literal (.string "\"")]⟩, ⟨7, .path [], .var "x"⟩]),
              ("outer", [⟨9, .path ["a.b"], .apply "in\nner"⟩])] :=
  ⟨by decide +kernel, by decide, Plan.parse_script nestedScript (by decide) none⟩

end Remap
