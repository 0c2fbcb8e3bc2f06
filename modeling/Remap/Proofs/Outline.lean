import Remap.Proofs.StatementForms

/-!
Mappings in outline.  An outline is the tree of a mapping down to its assignments, each of which is
some text that is read as one.  It has a text, with any layout, and it lists the map definitions in
it in the order in which they begin, wherever in the tree they stand.
-/

namespace Remap

open Remap.Parser

variable {ε : Type}

/-- The characters that can follow an item: space, or the brace that ends its block. -/
def isItemEnd (c : Char) : Bool :=
  isGapStart c || c = '}'

/-- An assignment as it is written: a text that is read as one up to its end, if only an item can
end there. -/
structure AssignmentText (query : Parser ε) where
  text : List Char
  target : Target
  expr : ε
  reads (rest : List Char) : Opens isItemEnd rest →
    Item.parse query .empty (text ++ rest) =
      .ok ((.assign (text ++ rest).length target expr, .empty), rest)

mutual

/-- An item of an outline. -/
inductive OutlineItem (query : Parser ε)
  | map (gap : Blanks1) (name : WrittenName) (beforeBrace : Blanks) (lead : Gap)
      (body : OutlineBody query) (tail : Gap)
  | assign (assignment : AssignmentText query)

/-- The items of a block or a program, at least one, each on lines of its own. -/
inductive OutlineBody (query : Parser ε)
  | last (item : OutlineItem query)
  | cons (item : OutlineItem query) (between : Break) (rest : OutlineBody query)

end

variable {query : Parser ε}

mutual

def OutlineItem.text : OutlineItem query → List Char
  | .map gap name beforeBrace lead body tail =>
      "map".toList ++ (gap.chars ++ (name.text ++ (beforeBrace.chars ++
        '{' :: (lead.text ++ (body.text ++ (tail.text ++ ['}']))))))
  | .assign assignment => assignment.text

def OutlineBody.text : OutlineBody query → List Char
  | .last item => item.text
  | .cons item between rest => item.text ++ (between.text ++ rest.text)

end

mutual

/-- The item of the syntax tree, when so many characters of the source follow it. -/
def OutlineItem.item (after : Nat) : OutlineItem query → Item ε
  | .map _ name _ _ body tail => .map name.name (body.items (tail.text.length + (after + 1)))
  | .assign assignment =>
      .assign (assignment.text.length + after) assignment.target assignment.expr

def OutlineBody.items (after : Nat) : OutlineBody query → List (Item ε)
  | .last item => [item.item after]
  | .cons item between rest =>
      item.item (between.text.length + (rest.text.length + after)) :: rest.items after

end

mutual

/-- The names of the definitions in an item, in the order in which they begin. -/
def OutlineItem.names : OutlineItem query → List String
  | .map _ name _ _ body _ => name.name :: body.names
  | .assign _ => []

def OutlineBody.names : OutlineBody query → List String
  | .last item => item.names
  | .cons item _ rest => item.names ++ rest.names

end

/-- Where a map definition begins, as the text from its keyword to the end of the source, and the
name that it defines. -/
structure MapStart where
  place : List Char
  name : String

mutual

/-- The definitions in an item that is followed by this text, in the order in which they begin. -/
def OutlineItem.starts (after : List Char) : OutlineItem query → List MapStart
  | .map gap name beforeBrace lead body tail =>
      ⟨(OutlineItem.map gap name beforeBrace lead body tail).text ++ after, name.name⟩ ::
        body.starts (tail.text ++ '}' :: after)
  | .assign _ => []

def OutlineBody.starts (after : List Char) : OutlineBody query → List MapStart
  | .last item => item.starts after
  | .cons item between rest =>
      item.starts (between.text ++ (rest.text ++ after)) ++ rest.starts after

end

/-- A mapping in outline. -/
structure Outline (query : Parser ε) where
  lead : Gap
  body : OutlineBody query
  ending : Ending

namespace Outline

def text (outline : Outline query) : List Char :=
  outline.lead.text ++ (outline.body.text ++ outline.ending.text)

def names (outline : Outline query) : List String :=
  outline.body.names

def starts (outline : Outline query) : List MapStart :=
  outline.body.starts outline.ending.text

end Outline

mutual

theorem OutlineItem.map_name_starts : (item : OutlineItem query) → (after : List Char) →
    (item.starts after).map MapStart.name = item.names
  | .assign _, _ => rfl
  | .map _ name _ _ body tail, after => by
    have hbody := body.map_name_starts (tail.text ++ '}' :: after)
    rw [OutlineItem.starts, List.map_cons, hbody, OutlineItem.names]

theorem OutlineBody.map_name_starts : (body : OutlineBody query) → (after : List Char) →
    (body.starts after).map MapStart.name = body.names
  | .last item, after => item.map_name_starts after
  | .cons item between body, after => by
    have hitem := item.map_name_starts (between.text ++ (body.text ++ after))
    have hbody := body.map_name_starts after
    rw [OutlineBody.starts, List.map_append, hitem, hbody, OutlineBody.names]

end

/-- The definition begins within a source, at a `map`. -/
structure MapStart.Within (source : List Char) (start : MapStart) : Prop where
  suffix : start.place <:+ source
  keyword : "map".toList <+: start.place

theorem MapStart.Within.append {source : List Char} {start : MapStart} (h : start.Within source)
    (before : List Char) : start.Within (before ++ source) where
  suffix := h.suffix.trans (List.suffix_append before source)
  keyword := h.keyword

mutual

theorem OutlineItem.within_of_mem_starts : (item : OutlineItem query) → ∀ {after : List Char}
    {start : MapStart}, start ∈ item.starts after → start.Within (item.text ++ after)
  | .assign _, _, _, h => by cases h
  | .map gap name beforeBrace lead body tail, after, start, h => by
    rw [OutlineItem.starts] at h
    rcases List.mem_cons.mp h with rfl | hinner
    · exact ⟨List.suffix_refl _, by simp [OutlineItem.text]⟩
    · have hwithin := body.within_of_mem_starts hinner
      have hsource := hwithin.append ("map".toList ++ (gap.chars ++ (name.text ++
        (beforeBrace.chars ++ '{' :: lead.text))))
      simpa [OutlineItem.text] using hsource

theorem OutlineBody.within_of_mem_starts : (body : OutlineBody query) → ∀ {after : List Char}
    {start : MapStart}, start ∈ body.starts after → start.Within (body.text ++ after)
  | .last item, _, _, h => item.within_of_mem_starts h
  | .cons item between body, after, start, h => by
    rw [OutlineBody.starts] at h
    rcases List.mem_append.mp h with hitem | hrest
    · have hwithin := item.within_of_mem_starts hitem
      simpa [OutlineBody.text] using hwithin
    · have hwithin := (body.within_of_mem_starts hrest).append (item.text ++ between.text)
      simpa [OutlineBody.text] using hwithin

end

mutual

theorem OutlineItem.length_lt_of_mem_starts : (item : OutlineItem query) → ∀ {after : List Char}
    {start : MapStart}, start ∈ item.starts after → after.length < start.place.length
  | .assign _, _, _, h => by cases h
  | .map gap name beforeBrace lead body tail, after, start, h => by
    rw [OutlineItem.starts] at h
    rcases List.mem_cons.mp h with rfl | hinner
    · simp only [OutlineItem.text, List.length_append, List.length_cons, List.length_nil]
      omega
    · have hlength := body.length_lt_of_mem_starts hinner
      rw [List.length_append, List.length_cons] at hlength
      omega

theorem OutlineBody.length_lt_of_mem_starts : (body : OutlineBody query) → ∀ {after : List Char}
    {start : MapStart}, start ∈ body.starts after → after.length < start.place.length
  | .last item, _, _, h => item.length_lt_of_mem_starts h
  | .cons item between body, after, start, h => by
    rw [OutlineBody.starts] at h
    rcases List.mem_append.mp h with hitem | hrest
    · have hlength := item.length_lt_of_mem_starts hitem
      rw [List.length_append, List.length_append] at hlength
      omega
    · exact body.length_lt_of_mem_starts hrest

end

/-- One definition begins before another in the same source. -/
def MapStart.Before (first second : MapStart) : Prop :=
  second.place.length < first.place.length

mutual

/-- The definitions are listed as they begin in the source. -/
theorem OutlineItem.starts_pairwise : (item : OutlineItem query) → (after : List Char) →
    (item.starts after).Pairwise MapStart.Before
  | .assign _, _ => .nil
  | .map gap name beforeBrace lead body tail, after => by
    rw [OutlineItem.starts, List.pairwise_cons]
    refine ⟨fun start hstart => ?_, body.starts_pairwise _⟩
    have hlength := (body.within_of_mem_starts hstart).suffix.length_le
    simp only [List.length_append, List.length_cons] at hlength
    simp only [MapStart.Before, OutlineItem.text, List.length_append, List.length_cons,
      List.length_nil]
    omega

theorem OutlineBody.starts_pairwise : (body : OutlineBody query) → (after : List Char) →
    (body.starts after).Pairwise MapStart.Before
  | .last item, after => item.starts_pairwise after
  | .cons item between body, after => by
    rw [OutlineBody.starts, List.pairwise_append]
    refine ⟨item.starts_pairwise _, body.starts_pairwise after, fun first hfirst second hsecond => ?_⟩
    have hafter := item.length_lt_of_mem_starts hfirst
    have hwithin := (body.within_of_mem_starts hsecond).suffix.length_le
    rw [List.length_append] at hafter
    rw [MapStart.Before]
    omega

end

/-- The first definition whose name is known when it begins, the names of those before it added to
those that are known at the outset. -/
def collision? (known : List String) : List MapStart → Option MapStart
  | [] => none
  | start :: later =>
      if start.name ∈ known then some start else collision? (start.name :: known) later

section

variable {known other : List String} {starts first others : List MapStart}

/-- In what order names are known, and how often, does not matter. -/
theorem collision?_congr (h : ∀ name, name ∈ known ↔ name ∈ other) :
    collision? known starts = collision? other starts := by
  induction starts generalizing known other with
  | nil => rfl
  | cons start later ih =>
      have hlater : ∀ name, name ∈ start.name :: known ↔ name ∈ start.name :: other := by
        intro name
        rw [List.mem_cons, List.mem_cons, h]
      simp only [collision?, h start.name, ih hlater]

theorem collision?_append :
    collision? known (first ++ others) =
      (collision? known first).or (collision? (first.map MapStart.name ++ known) others) := by
  induction first generalizing known with
  | nil => rfl
  | cons start later ih =>
      rw [List.cons_append, collision?, collision?]
      split
      · rfl
      · rw [ih]
        refine congrArg _ (collision?_congr fun name => ?_)
        simp only [List.mem_append, List.mem_cons, List.map_cons, or_assoc]
        exact or_left_comm

theorem collision?_eq_none_iff :
    collision? known starts = none ↔
      (starts.map MapStart.name).Nodup ∧ ∀ name ∈ starts.map MapStart.name, name ∉ known := by
  induction starts generalizing known with
  | nil => simp [collision?]
  | cons start later ih =>
      rw [collision?, List.map_cons, List.nodup_cons]
      split
      · rename_i hknown
        simp [hknown]
      · rename_i hnew
        rw [ih]
        constructor
        · rintro ⟨hnodup, hfresh⟩
          refine ⟨⟨fun hmem => ?_, hnodup⟩, fun name hname => ?_⟩
          · exact hfresh _ hmem List.mem_cons_self
          · rcases List.mem_cons.mp hname with rfl | hlater
            · exact hnew
            · exact fun hknown => hfresh name hlater (List.mem_cons_of_mem _ hknown)
        · rintro ⟨⟨hnotin, hnodup⟩, hfresh⟩
          refine ⟨hnodup, fun name hname hmem => ?_⟩
          rcases List.mem_cons.mp hmem with rfl | hknown
          · exact hnotin hname
          · exact hfresh name (List.mem_cons_of_mem _ hname) hknown

/-- Before the first collision all names are new. -/
theorem exists_split_of_collision? {start : MapStart} (h : collision? known starts = some start) :
    ∃ earlier later, starts = earlier ++ start :: later ∧ collision? known earlier = none ∧
      (start.name ∈ earlier.map MapStart.name ∨ start.name ∈ known) := by
  induction starts generalizing known with
  | nil => cases h
  | cons head later ih =>
      rw [collision?] at h
      split at h
      · rename_i hknown
        cases h
        exact ⟨[], later, rfl, rfl, .inr hknown⟩
      · rename_i hnew
        obtain ⟨earlier, rest, rfl, hearlier, hname⟩ := ih h
        refine ⟨head :: earlier, rest, rfl, ?_, ?_⟩
        · rw [collision?, if_neg hnew, hearlier]
        · rcases hname with hname | hname
          · exact .inl (List.mem_cons_of_mem _ hname)
          · rcases List.mem_cons.mp hname with heq | hknown
            · exact .inl (heq ▸ List.mem_cons_self)
            · exact .inr hknown

end

end Remap
