import Remap.Proofs.HeaderLines
import Remap.Proofs.JoinedMappings

/-!
Lines of statements.  Every statement of a plan has the line of the place at which it was read, and
between two statements of a list a line ends, so that the lines of a list increase.
-/

namespace Remap

open Remap.Parser

theorem Break.lineFeed_mem (between : Break) : '\n' ∈ between.text := by
  have hcount : 0 < between.tail.text.count '\n' := by
    rw [between.tail.count_lineFeed]
    exact Nat.one_pos
  exact List.mem_append_left _ (List.count_pos_iff.mp hcount)

variable {ε : Type}

/-- A statement and the offsets of a source between which it stands. -/
structure Placed (ε : Type) where
  statement : Statement ε
  start : Nat
  stop : Nat

namespace Placed

/-- The statement is what an item is parsed as where it begins, whatever maps are known, and its
line is the line of that place. -/
structure IsRead (query : Parser ε) (source : List Char) (placed : Placed ε) : Prop where
  nonempty : placed.start < placed.stop
  within : placed.stop ≤ source.length
  reads (registry : Item.Registry) : Item.parse query registry (source.drop placed.start) =
    .ok ((.assign (source.length - placed.start) placed.statement.target placed.statement.query,
      registry), source.drop placed.stop)
  line : placed.statement.line = lineAt source placed.start

/-- A line ends after one statement and before another one. -/
def EndsLineBefore (source : List Char) (first second : Placed ε) : Prop :=
  ∃ offset, first.stop ≤ offset ∧ offset < second.start ∧ source[offset]? = some '\n'

variable {query : Parser ε} {source : List Char} {first second : Placed ε}

theorem IsRead.start_lt (hfirst : first.IsRead query source)
    (h : EndsLineBefore source first second) : first.start < second.start := by
  obtain ⟨offset, hstop, hstart, -⟩ := h
  exact Nat.lt_trans hfirst.nonempty (Nat.lt_of_le_of_lt hstop hstart)

theorem IsRead.line_lt (hfirst : first.IsRead query source) (hsecond : second.IsRead query source)
    (h : EndsLineBefore source first second) : first.statement.line < second.statement.line := by
  obtain ⟨offset, hstop, hstart, hfeed⟩ := h
  rw [hfirst.line, hsecond.line]
  calc lineAt source first.start
      ≤ lineAt source offset :=
        lineAt_mono (Nat.le_trans (Nat.le_of_lt hfirst.nonempty) hstop)
    _ < lineAt source (offset + 1) := by
        rw [lineAt_succ hfeed]
        exact Nat.lt_succ_self _
    _ ≤ lineAt source second.start := lineAt_mono hstart

end Placed

/-- The statements stand in the source from an offset on, one after the other. -/
structure Listing (query : Parser ε) (source : List Char) (start : Nat)
    (statements : List (Statement ε)) (placed : List (Placed ε)) : Prop where
  statements : placed.map Placed.statement = statements
  read : ∀ one ∈ placed, one.IsRead query source
  after : ∀ one ∈ placed, start ≤ one.start
  separate : placed.Pairwise (Placed.EndsLineBefore source)

namespace Listing

variable {query : Parser ε} {source : List Char} {start : Nat} {statements : List (Statement ε)}
  {placed : List (Placed ε)}

theorem starts_increase (h : Listing query source start statements placed) :
    placed.Pairwise fun first second => first.start < second.start :=
  h.separate.imp_of_mem fun hfirst _ hends => (h.read _ hfirst).start_lt hends

theorem lines_increase (h : Listing query source start statements placed) :
    statements.Pairwise fun first second => first.line < second.line := by
  rw [← h.statements, List.pairwise_map]
  exact h.separate.imp_of_mem fun hfirst hsecond hends =>
    (h.read _ hfirst).line_lt (h.read _ hsecond) hends

theorem line_within (h : Listing query source start statements placed) :
    ∀ statement ∈ statements,
      1 ≤ statement.line ∧ statement.line ≤ (LineIndex.ofText source).lineCount := by
  rw [← h.statements, List.forall_mem_map]
  intro one hone
  rw [(h.read one hone).line]
  exact ⟨Nat.succ_le_succ (Nat.zero_le _), lineAt_le_lineCount source one.start⟩

end Listing

section

variable {query : Parser ε} {source before after : List Char}

/-- An assignment is read where its text stands. -/
theorem AssignmentText.isRead (assignment : AssignmentText query)
    (hsource : source = before ++ (assignment.text ++ after)) (hafter : Opens isItemEnd after) :
    Placed.IsRead query source
      ⟨⟨lineOfRemaining source (assignment.text.length + after.length), assignment.target,
        assignment.expr⟩, before.length, before.length + assignment.text.length⟩ where
  nonempty := by
    have hpos := (OutlineItem.assign assignment).length_text_pos
    rw [OutlineItem.text] at hpos
    exact Nat.lt_add_of_pos_right hpos
  within := by
    rw [hsource, List.length_append, List.length_append]
    exact Nat.add_le_add_left (Nat.le_add_right _ _) before.length
  reads registry := by
    have hstart : source.drop before.length = assignment.text ++ after := by
      rw [hsource, List.drop_left]
    have hstop : source.drop (before.length + assignment.text.length) = after := by
      rw [← List.drop_drop, hstart, List.drop_left]
    have hlength : source.length - before.length = (assignment.text ++ after).length := by
      rw [hsource, List.length_append, Nat.add_sub_cancel_left]
    obtain ⟨hne, hmap, hassign⟩ := Item.assignment_of_parse (assignment.reads after hafter)
    rw [hstart, hstop, hlength]
    exact Item.parse_of_assignment hne hmap hassign registry
  line := by
    have hline := lineOfRemaining_append before (assignment.text ++ after)
    rw [List.length_append] at hline
    rw [hsource, hline, lineAt, List.take_left]

/-- The statement of an item, if it has one, stands where the item does. -/
theorem OutlineItem.exists_listing (item : OutlineItem query)
    (hsource : source = before ++ (item.text ++ after)) (hafter : Opens isItemEnd after) :
    ∃ placed, Listing query source before.length
        ((item.item after.length).statement? (lineOfRemaining source)).toList placed ∧
      ∀ one ∈ placed, one.stop ≤ before.length + item.text.length := by
  cases item with
  | map gap name beforeBrace lead body tail =>
      exact ⟨[], ⟨rfl, List.forall_mem_nil _, List.forall_mem_nil _, .nil⟩, List.forall_mem_nil _⟩
  | assign assignment =>
      have hread := assignment.isRead hsource hafter
      exact ⟨[_], ⟨rfl, List.forall_mem_singleton.mpr hread,
        List.forall_mem_singleton.mpr (Nat.le_refl _), List.pairwise_singleton _ _⟩,
        List.forall_mem_singleton.mpr (Nat.le_refl _)⟩

/-- A break ends a line between what stands before it and what stands after it. -/
theorem Break.endsLineBefore (between : Break) {first second : Placed ε} {front back : List Char}
    (hsource : source = front ++ (between.text ++ back)) (hfirst : first.stop ≤ front.length)
    (hsecond : (front ++ between.text).length ≤ second.start) :
    Placed.EndsLineBefore source first second := by
  obtain ⟨index, hindex, hfeed⟩ := List.mem_iff_getElem.mp between.lineFeed_mem
  rw [List.length_append] at hsecond
  refine ⟨front.length + index, Nat.le_add_right_of_le hfirst, by omega, ?_⟩
  rw [hsource, List.getElem?_append_right (Nat.le_add_right _ _), Nat.add_sub_cancel_left,
    List.getElem?_append_left hindex, List.getElem?_eq_getElem hindex, hfeed]

theorem OutlineBody.source_cons {item : OutlineItem query} {between : Break}
    {body : OutlineBody query}
    (h : source = before ++ ((OutlineBody.cons item between body).text ++ after)) :
    source = before ++ (item.text ++ (between.text ++ (body.text ++ after))) ∧
      source = (before ++ item.text ++ between.text) ++ (body.text ++ after) := by
  constructor <;> simp [h, OutlineBody.text]

/-- The statements of a body stand where the body does: by induction on its items, the statement of
the first being separated from those of the others by the break between them. -/
theorem OutlineBody.exists_listing : (body : OutlineBody query) → ∀ {before : List Char},
    source = before ++ (body.text ++ after) → Opens isItemEnd after →
      ∃ placed, Listing query source before.length
        (Item.statements (lineOfRemaining source) (body.items after.length)) placed
  | .last item, before, hsource, hafter => by
    obtain ⟨placed, hlisting, -⟩ := item.exists_listing hsource hafter
    rw [OutlineBody.items, Item.statements_cons]
    refine ⟨placed, ?_⟩
    simpa [Item.statements] using hlisting
  | .cons item between body, before, hsource, hafter => by
    obtain ⟨hfirst, hrest⟩ := OutlineBody.source_cons hsource
    obtain ⟨placed, hlisting, hstop⟩ := item.exists_listing hfirst (between.opens_append _)
    obtain ⟨others, hothers⟩ := body.exists_listing hrest hafter
    rw [List.length_append, List.length_append] at hlisting
    refine ⟨placed ++ others, ?_, ?_, ?_, ?_⟩
    · rw [List.map_append, hlisting.statements, hothers.statements, OutlineBody.items,
        Item.statements_cons]
    · exact List.forall_mem_append.mpr ⟨hlisting.read, hothers.read⟩
    · refine List.forall_mem_append.mpr ⟨hlisting.after, fun one hone => ?_⟩
      have hlater := hothers.after one hone
      rw [List.length_append, List.length_append] at hlater
      omega
    · refine List.pairwise_append.mpr ⟨hlisting.separate, hothers.separate, ?_⟩
      intro one hone other hother
      have hsplit : source = (before ++ item.text) ++ (between.text ++ (body.text ++ after)) := by
        rw [hfirst, List.append_assoc]
      refine between.endsLineBefore hsplit ?_ (hothers.after other hother)
      rw [List.length_append]
      exact hstop one hone

mutual

/-- The statements of every definition in an item stand in its block. -/
theorem OutlineItem.exists_listing_of_mem_definitions : (item : OutlineItem query) →
    ∀ {before after : List Char} {name : String} {statements : List (Statement ε)},
      source = before ++ (item.text ++ after) →
      (name, statements) ∈ (item.item after.length).definitions (lineOfRemaining source) →
        ∃ start placed, Listing query source start statements placed
  | .assign _, _, _, _, _, _, h => by cases h
  | .map gap name beforeBrace lead body tail, before, after, _, _, hsource, h => by
    have hinside : source = (before ++ ("map".toList ++ (gap.chars ++ (name.text ++
        (beforeBrace.chars ++ '{' :: lead.text))))) ++
          (body.text ++ (tail.text ++ '}' :: after)) := by
      simp [hsource, OutlineItem.text]
    have hlength : tail.text.length + (after.length + 1) = (tail.text ++ '}' :: after).length := by
      rw [List.length_append, List.length_cons]
    rw [OutlineItem.item, hlength, Item.definitions, List.mem_append, List.mem_singleton] at h
    rcases h with hinner | hself
    · exact body.exists_listing_of_mem_definitionsIn hinside hinner
    · cases hself
      have hbrace : Opens isItemEnd ('}' :: after) := Opens.cons_iff.mpr (by decide)
      exact ⟨_, body.exists_listing hinside (tail.opens_append hbrace)⟩

theorem OutlineBody.exists_listing_of_mem_definitionsIn : (body : OutlineBody query) →
    ∀ {before after : List Char} {name : String} {statements : List (Statement ε)},
      source = before ++ (body.text ++ after) →
      (name, statements) ∈ Item.definitionsIn (lineOfRemaining source) (body.items after.length) →
        ∃ start placed, Listing query source start statements placed
  | .last item, _, _, _, _, hsource, h => by
    rw [OutlineBody.items, Item.definitionsIn, Item.definitionsIn, List.append_nil] at h
    exact item.exists_listing_of_mem_definitions hsource h
  | .cons item between body, before, after, _, _, hsource, h => by
    obtain ⟨hfirst, hrest⟩ := OutlineBody.source_cons hsource
    have hlength : between.text.length + (body.text.length + after.length) =
        (between.text ++ (body.text ++ after)).length := by
      rw [List.length_append, List.length_append]
    rw [OutlineBody.items, hlength, Item.definitionsIn, List.mem_append] at h
    rcases h with hitem | hbody
    · exact item.exists_listing_of_mem_definitions hfirst hitem
    · exact body.exists_listing_of_mem_definitionsIn hrest hbody

end

end

namespace Plan

/-- The list of the top-level statements, or that of the statements of a map. -/
def HasList (plan : Plan ε) (statements : List (Statement ε)) : Prop :=
  statements = plan.statements ∨ ∃ name, plan.maps.get? name = some statements

theorem exists_listing_of_parseWith {query : Parser ε} (hquery : RereadsQueries query)
    {file : Option String} {source : List Char} {plan : Plan ε}
    (h : parseWith query file source = .ok plan) {statements : List (Statement ε)}
    (hlist : plan.HasList statements) :
    ∃ start placed, Listing query source start statements placed := by
  obtain ⟨outline, rfl⟩ := exists_outline hquery h
  obtain ⟨-, rfl⟩ := Outline.parseWith_eq_ok_iff.mp h
  rcases hlist with rfl | ⟨name, hname⟩
  · exact ⟨_, outline.body.exists_listing rfl outline.ending.opens_text⟩
  · exact outline.body.exists_listing_of_mem_definitionsIn rfl (Dictionary.mem_of_get?_ofList hname)

/-- The statements of each list of an accepted source were read at increasing offsets, in the order
of the list.  At each of these an item is parsed as the statement, whose line is the line of the
offset, and between two statements of a list there is a line feed.  So the lines of a list increase,
and they are lines of the source. -/
theorem parse_records_lines {file : Option String} {source : List Char} {plan : Plan Expr}
    (h : parse file source = .ok plan) :
    ∀ statements, plan.HasList statements →
      (∃ placed : List (Placed Expr), placed.map Placed.statement = statements ∧
        (∀ one ∈ placed, one.IsRead Expr.parse source) ∧
        placed.Pairwise (fun first second => first.start < second.start) ∧
        placed.Pairwise (Placed.EndsLineBefore source)) ∧
      statements.Pairwise (fun first second => first.line < second.line) ∧
      ∀ statement ∈ statements,
        1 ≤ statement.line ∧ statement.line ≤ (LineIndex.ofText source).lineCount := by
  intro statements hlist
  obtain ⟨start, placed, hlisting⟩ :=
    exists_listing_of_parseWith Expr.parse_rereadsQueries h hlist
  exact ⟨⟨placed, hlisting.statements, hlisting.read, hlisting.starts_increase, hlisting.separate⟩,
    hlisting.lines_increase, hlisting.line_within⟩

/-- An array, a string and an object of more than one line, comments, and a map in a map, with two
kinds of line ends. -/
def manyLines : List Char :=
  ("# a\r\na = [\r\n 1,\r\n 2]\r\nmap m \x7b\n  x = \"s\nt\" # b\n  map n \x7b y = 2 \x7d\n\n" ++
    "  z = \x7b\"k\":\n 3\x7d\n\x7d\nb = 4 # c").toList

theorem parse_records_lines_of_manyLines :
    ∃ plan body, parse none manyLines = .ok plan ∧ plan.maps.get? "m" = some body ∧
      plan.statements.map Statement.line = [2, 13] ∧ body.map Statement.line = [6, 10] ∧
      (∃ placed : List (Placed Expr), placed.map Placed.statement = body ∧
        (∀ one ∈ placed, one.IsRead Expr.parse manyLines) ∧
        placed.Pairwise (Placed.EndsLineBefore manyLines)) ∧
      ∀ statement ∈ plan.statements,
        statement.line ≤ (LineIndex.ofText manyLines).lineCount := by
  have hlines : (parse none manyLines).toOption.map (fun plan =>
      (plan.statements.map Statement.line, (plan.maps.get? "m").map (·.map Statement.line))) =
        some ([2, 13], some [6, 10]) := by
    decide +kernel
  obtain ⟨plan, hplan, hboth⟩ := Option.map_eq_some_iff.mp hlines
  obtain ⟨htop, hmap⟩ := Prod.mk.inj hboth
  obtain ⟨body, hbody, hinner⟩ := Option.map_eq_some_iff.mp hmap
  have hparse : parse none manyLines = .ok plan := eq_ok_of_toOption hplan
  obtain ⟨⟨placed, hplaced, hread, -, hends⟩, -, -⟩ :=
    parse_records_lines hparse body (.inr ⟨"m", hbody⟩)
  obtain ⟨-, -, hwithin⟩ := parse_records_lines hparse plan.statements (.inl rfl)
  exact ⟨plan, body, hparse, hbody, htop, hinner, ⟨placed, hplaced, hread, hends⟩,
    fun statement hstatement => (hwithin statement hstatement).2⟩

end Plan

end Remap
