import Remap.Proofs.OutlineReading
import Remap.Proofs.Taken

/-!
Mappings read back.  A program is a loop over items up to the end of the text.  What is shown for
outlines holds for scripts, whose assignments have a spelling of their own and are read as what they
spell.
-/

namespace Remap

open Remap.Parser

variable {ε : Type} {query : Parser ε}

namespace Item

variable {registry later : Registry} {first : Item ε} {others : List (Item ε)}
  {source next rest : List Char}

theorem atEnd_eq_ok (text : List Char) : atEnd text = .ok (text.isEmpty, text) := rfl

/-- An item and the end of its line are read, and then the space up to the next item. -/
theorem programUpTo_of_nextLine {more left : List Char}
    (h : parse query registry source = .ok ((first, later), more)) (hline : NextLine more left)
    (bound : Nat) :
    programUpTo query (bound + 1) registry source =
      if left.isEmpty then .ok ([first], left)
      else (do return first :: (← programUpTo query bound later)) left := by
  obtain ⟨taken, middle, hend, hskip⟩ := hline
  obtain ⟨indent, afterBlanks, hblanks, hbreak⟩ := bind_eq_ok hend
  have hmore : afterBlanks.isEmpty = false := by
    rw [List.isEmpty_eq_false_iff]
    rintro rfl
    cases hbreak
  rw [programUpTo]
  refine (bind_of_ok h _).trans ?_
  refine (bind_of_ok hblanks _).trans ?_
  refine (bind_of_ok (atEnd_eq_ok _) _).trans ?_
  simp only [hmore, Bool.false_eq_true, ↓reduceIte]
  refine (bind_of_ok (expect_of_ok hbreak _) _).trans ?_
  refine (bind_of_ok hskip _).trans ?_
  refine (bind_of_ok (atEnd_eq_ok left) _).trans ?_
  cases left with
  | nil => rfl
  | cons c left => rfl

theorem programUpTo_tail (tail : LineTail) {left : List Char}
    (h : parse query registry source = .ok ((first, later), tail.text ++ next))
    (hnext : blankLines next = .ok ((), left)) (bound : Nat) :
    programUpTo query (bound + 1) registry source =
      if left.isEmpty then .ok ([first], left)
      else (do return first :: (← programUpTo query bound later)) left := by
  obtain ⟨taken, htaken⟩ := lineBreak_tail tail next
  exact programUpTo_of_nextLine h ⟨taken, next, htaken, hnext⟩ bound

/-- After the last item of a program nothing but space is left. -/
theorem programUpTo_last (ending : Ending)
    (h : parse query registry source = .ok ((first, later), ending.text)) (bound : Nat) :
    programUpTo query (bound + 1) registry source = .ok ([first], []) := by
  obtain ⟨⟨lines, indent⟩, comment⟩ := ending
  cases lines with
  | nil =>
      rw [programUpTo]
      refine (bind_of_ok h _).trans ?_
      have hblanks : blanks (indent.chars ++ commentText comment) =
          .ok (indent.chars, commentText comment) := by
        refine blanks_append indent ?_
        cases comment <;> simp [commentText, isSpaceOrTab]
      refine (bind_of_ok hblanks _).trans ?_
      cases comment with
      | none => rfl
      | some comment =>
          have hbreak : expect "end of statement" lineBreak ('#' :: comment.chars) =
              .ok ('#' :: comment.chars, []) :=
            expect_of_ok (orElse_of_ok (comment_atEnd comment) _) _
          refine (bind_of_ok (atEnd_eq_ok ('#' :: comment.chars)) _).trans ?_
          exact (bind_of_ok hbreak _).trans rfl
  | cons line lines =>
      have htext : (Ending.mk ⟨line :: lines, indent⟩ comment).text =
          line.text ++ (Ending.mk ⟨lines, indent⟩ comment).text := by
        simp [Ending.text, Gap.text]
      rw [htext] at h
      exact programUpTo_tail line h (blankLines_ending ⟨⟨lines, indent⟩, comment⟩) bound

/-- Between two items of a program the loop goes on with the second. -/
theorem programUpTo_break (between : Break) (bound : Nat) (hbegins : BeginsItem next)
    (h : parse query registry source = .ok ((first, later), between.text ++ next)) :
    programUpTo query (bound + 1) registry source =
      (do return first :: (← programUpTo query bound later)) next := by
  have hmore : next.isEmpty = false := by
    rw [List.isEmpty_eq_false_iff]
    exact hbegins.nonempty
  rw [Break.text, List.append_assoc] at h
  rw [programUpTo_tail between.tail h (hbegins.blankLines between.gap) bound, hmore]
  rfl

end Item

theorem OutlineItem.parse_settles (item : OutlineItem query) (registry : Item.Registry)
    {rest : List Char} (h : Opens isItemEnd rest) :
    Settles registry (item.starts rest) (item.item rest.length) rest
      (Item.parse query registry (item.text ++ rest)) := by
  refine item.itemUpTo_settles registry ?_ h
  rw [List.length_append]
  omega

/-- A program in which these definitions begin is read to its end if they do not collide, and fails
at their first collision. -/
structure SettlesProgram (registry : Item.Registry) (starts : List MapStart)
    (items : List (Item ε)) (result : Except Failure (List (Item ε) × List Char)) : Prop where
  reads : collision? registry.known starts = none → result = .ok (items, [])
  collides (start : MapStart) : collision? registry.known starts = some start →
    result = .error start.failure

theorem OutlineBody.programUpTo_settles (ending : Ending) : (body : OutlineBody query) →
    ∀ (registry : Item.Registry) {bound : Nat}, body.text.length ≤ bound →
      SettlesProgram registry (body.starts ending.text) (body.items ending.text.length)
        (Item.programUpTo query bound registry (body.text ++ ending.text))
  | body, _, 0, hbound => by
    have hpos := List.length_pos_iff.mpr body.beginsItem.nonempty
    omega
  | .last item, registry, bound + 1, _ => by
    have hitem := item.parse_settles registry ending.opens_text
    refine ⟨fun hnone => ?_, fun start hstart => ?_⟩
    · obtain ⟨after, -, hread⟩ := hitem.reads hnone
      exact Item.programUpTo_last ending hread bound
    · rw [Item.programUpTo]
      exact bind_of_error (hitem.collides start hstart) _
  | .cons item between body, registry, bound + 1, hbound => by
    have hpos := item.length_text_pos
    rw [OutlineBody.text, List.length_append, List.length_append] at hbound
    have hothers : body.text.length ≤ bound := by omega
    have hitem := item.parse_settles registry (between.opens_append (body.text ++ ending.text))
    simp only [List.length_append] at hitem
    have hsource : (OutlineBody.cons item between body).text ++ ending.text =
        item.text ++ (between.text ++ (body.text ++ ending.text)) := by
      simp [OutlineBody.text]
    rw [hsource, OutlineBody.starts, OutlineBody.items]
    refine ⟨fun hnone => ?_, fun start hstart => ?_⟩
    · rw [collision?_append, Option.or_eq_none_iff] at hnone
      obtain ⟨begun, hgrows, hread⟩ := hitem.reads hnone.1
      have hbody := body.programUpTo_settles ending begun hothers
      rw [Item.programUpTo_break between bound (body.beginsItem.append _) hread]
      exact bind_of_ok (hbody.reads (hgrows.collision?_known.trans hnone.2)) _
    · rw [collision?_append, Option.or_eq_some_iff] at hstart
      rcases hstart with hfirst | ⟨hnone, hlater⟩
      · rw [Item.programUpTo]
        exact bind_of_error (hitem.collides start hfirst) _
      · obtain ⟨begun, hgrows, hread⟩ := hitem.reads hnone
        have hbody := body.programUpTo_settles ending begun hothers
        rw [Item.programUpTo_break between bound (body.beginsItem.append _) hread]
        exact bind_of_error (hbody.collides start (hgrows.collision?_known.trans hlater)) _

/-- The program is read back from the text of an outline, or fails at the first collision. -/
theorem Outline.program_settles (outline : Outline query) :
    SettlesProgram .empty outline.starts (outline.body.items outline.ending.text.length)
      (Item.program query outline.text) := by
  have hlead : blankLines outline.text = .ok ((), outline.body.text ++ outline.ending.text) :=
    (outline.body.beginsItem.append outline.ending.text).blankLines outline.lead
  rw [Item.program, bind_of_ok hlead]
  refine outline.body.programUpTo_settles outline.ending .empty ?_
  rw [List.length_append]
  omega

theorem isDelimiter_of_isItemEnd (c : Char) (h : isItemEnd c = true) : isDelimiter c = true := by
  simp only [isItemEnd, isGapStart, isSpaceTabOrBreak, Bool.or_eq_true, decide_eq_true_eq] at h
  rcases h with ((((rfl | rfl) | rfl) | rfl) | rfl) | rfl <;> decide

theorem Item.parse_of_assignment {source rest : List Char} {item : Item ε} (hne : source ≠ [])
    (hmap : Misses mapKeyword source) (h : assignment query source = .ok (item, rest))
    (registry : Registry) : parse query registry source = .ok ((item, registry), rest) := by
  obtain ⟨bound, hbound⟩ : ∃ bound, source.length = bound + 1 :=
    Nat.exists_eq_succ_of_ne_zero (mt List.length_eq_zero_iff.mp hne)
  rw [parse, hbound, itemUpTo_of_assignment hmap h]

/-- An assignment of a script as a text. -/
def AssignmentText.ofSpelled (target : SpelledTarget) (value : SpelledValue) :
    AssignmentText Expr.parse where
  text := target.text ++ value.text
  target := target.target
  expr := value.expr.expr
  reads rest h := by
    have hdelimiter := h.mono isDelimiter_of_isItemEnd
    obtain ⟨hmap, hassign⟩ := Item.assignment_text target value hdelimiter
      (List.append_assoc target.text value.text rest)
    exact Item.parse_of_assignment (by simp [SpelledValue.text]) hmap hassign .empty

mutual

/-- A script's item in outline. -/
theorem SpelledItem.exists_outline : (item : SpelledItem) → ∃ outline : OutlineItem Expr.parse,
    outline.text = item.text ∧ outline.names = item.names ∧
      ∀ after, outline.item after = item.item after
  | .assign target value => by
    refine ⟨.assign (.ofSpelled target value), rfl, rfl, fun after => ?_⟩
    rw [OutlineItem.item, SpelledItem.item, AssignmentText.ofSpelled, List.length_append,
      Nat.add_assoc]
  | .map gap name beforeBrace lead body tail => by
    obtain ⟨written, htext, hname⟩ := name.exists_written
    obtain ⟨inner, hbody, hnames, hitems⟩ := body.exists_outline
    refine ⟨.map gap written beforeBrace lead inner tail, ?_, ?_, fun after => ?_⟩
    · simp [OutlineItem.text, SpelledItem.text, mapHead, htext, hbody]
    · rw [OutlineItem.names, SpelledItem.names, hname, hnames]
    · rw [OutlineItem.item, SpelledItem.item, hname, hitems]

theorem SpelledBody.exists_outline : (body : SpelledBody) → ∃ outline : OutlineBody Expr.parse,
    outline.text = body.text ∧ outline.names = body.names ∧
      ∀ after, outline.items after = body.items after
  | .last item => by
    obtain ⟨outline, htext, hnames, hitem⟩ := item.exists_outline
    refine ⟨.last outline, htext, hnames, fun after => ?_⟩
    rw [OutlineBody.items, SpelledBody.items, hitem]
  | .cons item between body => by
    obtain ⟨first, htext, hnames, hitem⟩ := item.exists_outline
    obtain ⟨rest, htexts, hothers, hitems⟩ := body.exists_outline
    refine ⟨.cons first between rest, ?_, ?_, fun after => ?_⟩
    · rw [OutlineBody.text, SpelledBody.text, htext, htexts]
    · rw [OutlineBody.names, SpelledBody.names, hnames, hothers]
    · rw [OutlineBody.items, SpelledBody.items, hitem, hitems, htexts]

end

/-- The program is read back from the text of a script whose map names are distinct. -/
theorem Script.program_text (script : Script) (hnames : script.names.Nodup) :
    Item.program Expr.parse script.text =
      .ok (script.body.items script.ending.text.length, []) := by
  obtain ⟨body, htext, hbodyNames, hitems⟩ := script.body.exists_outline
  let outline : Outline Expr.parse := ⟨script.lead, body, script.ending⟩
  have hnone : collision? Item.Registry.empty.known outline.starts = none := by
    rw [collision?_eq_none_iff, Outline.starts, body.map_name_starts, hbodyNames]
    exact ⟨hnames, fun _ _ => List.not_mem_nil⟩
  have hread := outline.program_settles.reads hnone
  rw [Outline.text, htext, hitems] at hread
  exact hread

end Remap
