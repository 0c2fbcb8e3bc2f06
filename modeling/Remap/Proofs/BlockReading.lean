import Remap.Proofs.Outline

/-!
The parts of items.  What makes a text an assignment and not a map definition, how a definition goes
on up to its block, and the loop over the items of a block, described by what reading one item and
the space after it leaves to it.
-/

namespace Remap

open Remap.Parser

variable {ε : Type}

theorem SpelledName.isGapStart_of_isStart (c : Char) (h : isStart c = true) :
    isGapStart c = false := by
  cases hgap : isGapStart c with
  | false => rfl
  | true =>
      simp only [isGapStart, isSpaceTabOrBreak, Bool.or_eq_true, decide_eq_true_eq] at hgap
      rcases hgap with (((rfl | rfl) | rfl) | rfl) | rfl <;> revert h <;> decide

/-- An item can begin here. -/
structure BeginsItem (text : List Char) : Prop where
  nonempty : text ≠ []
  opens : Opens SpelledName.isStart text

namespace BeginsItem

variable {text : List Char}

theorem append (h : BeginsItem text) (rest : List Char) : BeginsItem (text ++ rest) where
  nonempty hnil := h.nonempty (List.append_eq_nil_iff.mp hnil).1
  opens := h.opens.append_of_ne_nil h.nonempty rest

/-- The space before an item is skipped up to the item. -/
theorem blankLines (h : BeginsItem text) (gap : Gap) :
    Parser.blankLines (gap.text ++ text) = .ok ((), text) :=
  blankLines_gap gap (h.opens.apart SpelledName.isGapStart_of_isStart)

/-- A block does not end where an item begins. -/
theorem not_brace (h : BeginsItem text) : ¬(text = [] ∨ text.head? = some '}') := by
  rintro (hnil | hbrace)
  · exact h.nonempty hnil
  · have hstart := h.opens '}' (by rw [hbrace]; rfl)
    revert hstart
    decide

end BeginsItem

namespace Item

variable {query : Parser ε} {item : Scoped (Item ε)} {registry : Registry} {first : Item ε}
  {others items : List (Item ε)} {source next rest text : List Char}

/-- A text that does not begin like a name does not begin with a word either. -/
theorem after?_of_not_start {c : Char} (hc : SpelledName.isStart c = true) (word : List Char)
    (h : Opens (!SpelledName.isStart ·) text) : after? (c :: word) text = none := by
  cases text with
  | nil => rfl
  | cons d text =>
      have hne : c ≠ d := by
        rintro rfl
        rw [Opens.cons_iff, hc] at h
        cases h
      rw [after?, if_neg hne]

theorem assignment_misses (h : Opens (!SpelledName.isStart ·) text) :
    Misses (assignment query) text := by
  have hlet : after? "let".toList text = none := after?_of_not_start (by decide) _ h
  have hmeta : after? "meta".toList text = none := after?_of_not_start (by decide) _ h
  have hpath : Misses (pathForm query) text := by
    rw [Misses, pathForm, bind_of_ok (here_eq_ok text)]
    refine Misses.bind ?_ _
    rw [Misses, targetPath, bind_of_ok (here_eq_ok text)]
    exact ((name_misses h).expect "target-path").bind _
  exact (letForm_misses hlet).orElse ((metaForm_misses hmeta).orElse hpath)

/-- What the map form takes is a map. -/
theorem mapForm_yields (item : Scoped (Item ε)) (registry : Registry) :
    Yields (mapForm item registry) fun result => ∃ name body, result.1 = .map name body := by
  rw [mapForm]
  refine (Yields.always _).bind fun start _ => (Yields.always _).bind fun _ _ => ?_
  refine (Yields.always _).bind fun name _ => (Yields.always _).bind fun _ _ => ?_
  refine (Yields.always _).bind fun _ _ => (Yields.always _).bind fun read _ => ?_
  exact (Yields.always _).bind fun _ _ => .pure ⟨name, read.1, rfl⟩

/-- An assignment that is read as an item is read as one whatever maps are known. -/
theorem assignment_of_parse {remaining : Nat} {target : Target} {expr : ε} {later : Registry}
    (h : parse query registry source = .ok ((.assign remaining target expr, later), rest)) :
    source ≠ [] ∧ Misses mapKeyword source ∧
      assignment query source = .ok (.assign remaining target expr, rest) := by
  cases source with
  | nil => cases h
  | cons c source =>
      refine ⟨List.cons_ne_nil c source, ?_⟩
      rw [parse, List.length_cons, itemUpTo] at h
      rcases orElse_eq_ok h with hmap | ⟨hmisses, hassign⟩
      · obtain ⟨name, body, heq⟩ := mapForm_yields _ _ _ _ _ hmap
        cases heq
      · refine ⟨mapForm_misses_iff.mp hmisses, ?_⟩
        rw [keeping, bind_apply] at hassign
        split at hassign
        · rename_i found after hfound
          cases hassign
          exact hfound
        · cases hassign

/-- A map form after its name. -/
theorem mapForm_of_name (item : Scoped (Item ε)) (registry : Registry) {afterKeyword : List Char}
    {name : String} (hkeyword : mapKeyword source = .ok ((), afterKeyword))
    (hname : Parser.name afterKeyword = .ok (name, rest)) :
    mapForm item registry source =
      (do
        collide source name (registry.Knows name)
        let _ ← blanks
        let (body, inner) ← commit (block item (registry.enter name))
        collide source name (name ∈ inner.closed)
        return (.map name body, inner.leave.register name) : Parser (Item ε × Registry)) rest := by
  rw [mapForm, bind_of_ok (here_eq_ok source), bind_of_ok hkeyword,
    bind_of_ok (commit_of_ok (expect_of_ok hname "map-name"))]

/-- Whatever goes wrong in the block of a definition is final. -/
theorem mapForm_of_failed_block {afterKeyword afterName gap inner : List Char} {name : String}
    {failure : Failure} (hkeyword : mapKeyword source = .ok ((), afterKeyword))
    (hname : Parser.name afterKeyword = .ok (name, afterName)) (hnew : ¬registry.Knows name)
    (hgap : blanks afterName = .ok (gap, inner))
    (hblock : block item (registry.enter name) inner = .error failure) :
    mapForm item registry source = .error { failure with committed := true } := by
  rw [mapForm_of_name item registry hkeyword hname, bind_of_ok (collide_of_not hnew source name _),
    bind_of_ok hgap]
  exact bind_of_error (commit_of_failed hblock) _

/-- A map form up to the block of the definition. -/
theorem mapForm_name (item : Scoped (Item ε)) (registry : Registry) (gap : Blanks1)
    (name : WrittenName) (beforeBrace : Blanks) (inner : List Char)
    (hsource : source =
      "map".toList ++ (gap.chars ++ (name.text ++ (beforeBrace.chars ++ '{' :: inner)))) :
    mapForm item registry source =
      (do
        collide source name.name (registry.Knows name.name)
        let _ ← blanks
        let (body, inner) ← commit (block item (registry.enter name.name))
        collide source name.name (name.name ∈ inner.closed)
        return (.map name.name body, inner.leave.register name.name) : Parser (Item ε × Registry))
          (beforeBrace.chars ++ '{' :: inner) := by
  have hend : Opens (!isBareNameChar ·) (beforeBrace.chars ++ '{' :: inner) := by
    refine Opens.append (beforeBrace.opens.mono fun c hc => ?_) (by rw [Opens.cons_iff]; decide)
    rw [SpelledValue.isBareNameChar_of_isStart c (by simp [SpelledValue.isStart, hc])]
    rfl
  have hkeyword : mapKeyword source =
      .ok ((), name.text ++ (beforeBrace.chars ++ '{' :: inner)) := by
    have hblank := (name.opens_text (beforeBrace.chars ++ '{' :: inner)).apart
      SpelledName.isSpaceOrTab_of_isStart
    rw [hsource, mapKeyword, bind_of_ok (keyword_append "map" _)]
    exact bind_of_ok (blanks1_append gap hblank) _
  exact mapForm_of_name item registry hkeyword (name.name_append hend)

section

variable {gap : Blanks1} {name : WrittenName} {beforeBrace : Blanks} {inner : List Char}

theorem mapForm_of_known
    (hsource : source =
      "map".toList ++ (gap.chars ++ (name.text ++ (beforeBrace.chars ++ '{' :: inner))))
    (h : registry.Knows name.name) :
    mapForm item registry source = .error ⟨true, source, .mapCollision name.name⟩ := by
  rw [mapForm_name item registry gap name beforeBrace inner hsource]
  exact bind_of_error (collide_of_taken h source name.name _) _

theorem mapForm_of_block {body : List (Item ε)} {later : Registry}
    (hsource : source =
      "map".toList ++ (gap.chars ++ (name.text ++ (beforeBrace.chars ++ '{' :: inner))))
    (hnew : ¬registry.Knows name.name)
    (hblock : block item (registry.enter name.name) ('{' :: inner) = .ok ((body, later), rest))
    (hstill : name.name ∉ later.closed) :
    mapForm item registry source =
      .ok ((.map name.name body, later.leave.register name.name), rest) := by
  have hbrace : Opens (!isSpaceOrTab ·) ('{' :: inner) := by simp [isSpaceOrTab]
  rw [mapForm_name item registry gap name beforeBrace inner hsource,
    bind_of_ok (collide_of_not hnew source name.name _),
    bind_of_ok (blanks_append beforeBrace hbrace), bind_of_ok (commit_of_ok hblock)]
  exact bind_of_ok (collide_of_not hstill source name.name rest) _

theorem mapForm_of_block_error {failure : Failure}
    (hsource : source =
      "map".toList ++ (gap.chars ++ (name.text ++ (beforeBrace.chars ++ '{' :: inner))))
    (hnew : ¬registry.Knows name.name)
    (hblock : block item (registry.enter name.name) ('{' :: inner) = .error failure)
    (hcommitted : failure.committed = true) :
    mapForm item registry source = .error failure := by
  have hbrace : Opens (!isSpaceOrTab ·) ('{' :: inner) := by simp [isSpaceOrTab]
  rw [mapForm_name item registry gap name beforeBrace inner hsource,
    bind_of_ok (collide_of_not hnew source name.name _),
    bind_of_ok (blanks_append beforeBrace hbrace)]
  exact bind_of_error (commit_of_error hblock hcommitted) _

end

theorem lineBreak_tail (tail : LineTail) (rest : List Char) :
    ∃ taken, (do let _ ← blanks; lineBreak : Parser (List Char)) (tail.text ++ rest) =
      .ok (taken, rest) := by
  obtain ⟨taken, htaken⟩ := lineBreak_append tail.comment tail.lineEnd rest
  exact ⟨taken, (bind_of_ok (blanks_lineTail tail rest) _).trans htaken⟩

theorem lineBreak_indent_misses (indent : Blanks) (h : Opens (!isGapStart ·) rest) :
    Misses (do let _ ← blanks; lineBreak : Parser (List Char)) (indent.chars ++ rest) := by
  rw [Misses, bind_of_ok (blanks_append indent (opens_not_blank h))]
  exact lineBreak_misses h

/-- After the last item of a block, the space up to its brace is read by the loop or left to what
follows the loop. -/
theorem moreInBlock_tail (item : Scoped (Item ε)) (registry : Registry) (tail : Gap)
    (rest : List Char) (bound : Nat) :
    ∃ left, moreInBlock item bound registry (tail.text ++ '}' :: rest) =
        .ok (([], registry), left) ∧
      blankLines left = .ok ((), '}' :: rest) := by
  have hbrace : Opens (!isGapStart ·) ('}' :: rest) := by
    rw [Opens.cons_iff]
    decide
  cases bound with
  | zero => exact ⟨_, rfl, blankLines_gap tail hbrace⟩
  | succ bound =>
      obtain ⟨lines, indent⟩ := tail
      cases lines with
      | nil =>
          refine ⟨indent.chars ++ '}' :: rest, ?_, blankLines_gap ⟨[], indent⟩ hbrace⟩
          have hnone := optional_of_misses (lineBreak_indent_misses indent hbrace)
          rw [moreInBlock]
          exact bind_of_ok hnone _
      | cons line lines =>
          refine ⟨'}' :: rest, ?_, blankLines_gap ⟨[], .empty⟩ hbrace⟩
          obtain ⟨taken, htaken⟩ := lineBreak_tail line ((Gap.mk lines indent).text ++ '}' :: rest)
          have hsome := optional_of_ok htaken
          have htext : (Gap.mk (line :: lines) indent).text ++ '}' :: rest =
              line.text ++ ((Gap.mk lines indent).text ++ '}' :: rest) := by
            simp [Gap.text]
          rw [htext, moreInBlock]
          refine (bind_of_ok hsome _).trans ?_
          refine (bind_of_ok (blankLines_gap ⟨lines, indent⟩ hbrace) _).trans ?_
          rfl

/-- A line ends here, and after space the text goes on. -/
def NextLine (text next : List Char) : Prop :=
  ∃ taken middle, (do let _ ← blanks; lineBreak : Parser (List Char)) text = .ok (taken, middle) ∧
    blankLines middle = .ok ((), next)

/-- The loop over the items of a block goes on with the item on the next line. -/
theorem moreInBlock_of_nextLine (item : Scoped (Item ε)) (registry : Registry)
    (h : NextLine text next) (hmore : ¬(next = [] ∨ next.head? = some '}')) (bound : Nat) :
    moreInBlock item (bound + 1) registry text =
      (do
        let (first, registry) ← item registry
        let (others, registry) ← moreInBlock item bound registry
        return (first :: others, registry) : Parser (List (Item ε) × Registry)) next := by
  obtain ⟨taken, middle, hend, hskip⟩ := h
  rw [moreInBlock]
  refine (bind_of_ok (optional_of_ok hend) _).trans ?_
  refine (bind_of_ok hskip _).trans ?_
  refine (bind_of_ok (here_eq_ok next) _).trans ?_
  simp only [hmore, ↓reduceIte]

/-- Between two items of a block, the loop goes on with the second. -/
theorem moreInBlock_break (item : Scoped (Item ε)) (registry : Registry) (between : Break)
    (bound : Nat) (h : BeginsItem next) :
    moreInBlock item (bound + 1) registry (between.text ++ next) =
      (do
        let (first, registry) ← item registry
        let (others, registry) ← moreInBlock item bound registry
        return (first :: others, registry) : Parser (List (Item ε) × Registry)) next := by
  obtain ⟨taken, htaken⟩ := lineBreak_tail between.tail (between.gap.text ++ next)
  rw [Break.text, List.append_assoc]
  exact moreInBlock_of_nextLine item registry ⟨taken, _, htaken, h.blankLines between.gap⟩
    h.not_brace bound

/-- A block from its first item on. -/
theorem block_of_brace (item : Scoped (Item ε)) (registry : Registry) {inner : List Char}
    (h : blankLines inner = .ok ((), next)) :
    block item registry ('{' :: inner) =
      (do
        let (first, registry) ← item registry
        let rest ← here
        let (others, registry) ← moreInBlock item rest.length registry
        blankLines
        char '}'
        return (first :: others, registry) : Parser (List (Item ε) × Registry)) next := by
  rw [block, bind_of_ok (char_cons '{' _), bind_of_ok h]

theorem block_lead (item : Scoped (Item ε)) (registry : Registry) (lead : Gap)
    (h : BeginsItem source) :
    block item registry ('{' :: (lead.text ++ source)) =
      (do
        let (first, registry) ← item registry
        let rest ← here
        let (others, registry) ← moreInBlock item rest.length registry
        blankLines
        char '}'
        return (first :: others, registry) : Parser (List (Item ε) × Registry)) source :=
  block_of_brace item registry (h.blankLines lead)

/-- The items of a block are read from a source that goes on with its brace: the first by itself,
and the others by the loop once its bound allows for them. -/
def ReadsBlock (item : Scoped (Item ε)) (registry : Registry) (source : List Char)
    (items : List (Item ε)) (later : Registry) (rest : List Char) : Prop :=
  ∃ first others begun more, items = first :: others ∧
    item registry source = .ok ((first, begun), more) ∧ more.length ≤ source.length ∧
      ∀ bound, more.length ≤ bound →
        ∃ left, moreInBlock item bound begun more = .ok ((others, later), left) ∧
          blankLines left = .ok ((), '}' :: rest)

/-- The items of a block are not read, because of this failure of one of them. -/
def FailsBlock (item : Scoped (Item ε)) (registry : Registry) (source : List Char)
    (failure : Failure) : Prop :=
  item registry source = .error failure ∨
    ∃ first begun more, item registry source = .ok ((first, begun), more) ∧
      more.length ≤ source.length ∧
        ∀ bound, more.length ≤ bound → moreInBlock item bound begun more = .error failure

section

variable {later begun : Registry} {failure : Failure}

theorem readsBlock_last (tail : Gap)
    (h : item registry source = .ok ((first, later), tail.text ++ '}' :: rest))
    (hshorter : (tail.text ++ '}' :: rest).length ≤ source.length) :
    ReadsBlock item registry source [first] later rest :=
  ⟨first, [], later, _, rfl, h, hshorter, fun bound _ =>
    moreInBlock_tail item later tail rest bound⟩

/-- The bound of a loop that meets a break allows for one more item after it. -/
theorem exists_bound_of_break (between : Break) {bound : Nat}
    (h : (between.text ++ next).length ≤ bound) :
    ∃ smaller, bound = smaller + 1 ∧ next.length ≤ smaller := by
  have hpos : 0 < between.text.length := by
    obtain ⟨⟨blanks, comment, lineEnd⟩, gap⟩ := between
    cases lineEnd <;>
      (simp only [Break.text, LineTail.text, LineEnd.text, List.length_append, List.length_cons]
       omega)
  rw [List.length_append] at h
  exact ⟨bound - 1, by omega, by omega⟩

theorem readsBlock_cons (between : Break)
    (h : item registry source = .ok ((first, begun), between.text ++ next))
    (hshorter : (between.text ++ next).length ≤ source.length) (hbegins : BeginsItem next)
    (hitems : ReadsBlock item begun next items later rest) :
    ReadsBlock item registry source (first :: items) later rest := by
  obtain ⟨second, others, further, more, rfl, hsecond, hlength, hothers⟩ := hitems
  refine ⟨first, second :: others, begun, _, rfl, h, hshorter, fun bound hbound => ?_⟩
  obtain ⟨bound, rfl, hle⟩ := exists_bound_of_break between hbound
  obtain ⟨left, hmore, hleft⟩ := hothers bound (Nat.le_trans hlength hle)
  refine ⟨left, ?_, hleft⟩
  rw [moreInBlock_break item begun between bound hbegins, bind_of_ok hsecond]
  exact bind_of_ok hmore _

theorem failsBlock_cons (between : Break)
    (h : item registry source = .ok ((first, begun), between.text ++ next))
    (hshorter : (between.text ++ next).length ≤ source.length) (hbegins : BeginsItem next)
    (hitems : FailsBlock item begun next failure) :
    FailsBlock item registry source failure := by
  refine .inr ⟨first, begun, _, h, hshorter, fun bound hbound => ?_⟩
  obtain ⟨bound, rfl, hle⟩ := exists_bound_of_break between hbound
  rw [moreInBlock_break item begun between bound hbegins]
  rcases hitems with hsecond | ⟨second, further, more, hsecond, hlength, hothers⟩
  · exact bind_of_error hsecond _
  · rw [bind_of_ok hsecond]
    exact bind_of_error (hothers bound (Nat.le_trans hlength hle)) _

theorem block_of_readsBlock (lead : Gap) (hbegins : BeginsItem source)
    (h : ReadsBlock item registry source items later rest) :
    block item registry ('{' :: (lead.text ++ source)) = .ok ((items, later), rest) := by
  obtain ⟨first, others, begun, more, rfl, hfirst, -, hothers⟩ := h
  obtain ⟨left, hmore, hleft⟩ := hothers more.length (Nat.le_refl _)
  rw [block_lead item registry lead hbegins, bind_of_ok hfirst]
  refine (bind_of_ok (here_eq_ok more) _).trans ?_
  refine (bind_of_ok hmore _).trans ?_
  refine (bind_of_ok hleft _).trans ?_
  exact bind_of_ok (char_cons '}' rest) _

theorem block_of_failsBlock (lead : Gap) (hbegins : BeginsItem source)
    (h : FailsBlock item registry source failure) :
    block item registry ('{' :: (lead.text ++ source)) = .error failure := by
  rw [block_lead item registry lead hbegins]
  rcases h with hfirst | ⟨first, begun, more, hfirst, -, hothers⟩
  · exact bind_of_error hfirst _
  · rw [bind_of_ok hfirst]
    refine (bind_of_ok (here_eq_ok more) _).trans ?_
    exact bind_of_error (hothers more.length (Nat.le_refl _)) _

end

end Item

end Remap
