import Remap.Proofs.Collisions
import Remap.Proofs.Forms
import Remap.Proofs.Places

/-!
Attempts.  A parse asks for one item after the other, and inside a block for the items of the block.
It goes on only where the item that it asked for has been read, so that the failure of one attempt
is the failure of the whole parse, at the same place and for the same cause.
-/

namespace Remap.Item

open Remap.Parser

variable {ε : Type}

/-- The loop over the items of a block asks for one with this registry at this place. -/
inductive AsksInLoop (item : Scoped (Item ε)) :
    Nat → Registry → List Char → Registry → List Char → Prop
  | next {bound : Nat} {registry : Registry} {text next : List Char} (hline : NextLine text next)
      (hmore : ¬(next = [] ∨ next.head? = some '}')) :
      AsksInLoop item (bound + 1) registry text registry next
  | later {bound : Nat} {registry begun asked : Registry} {text next more place : List Char}
      {first : Item ε} (hline : NextLine text next) (hmore : ¬(next = [] ∨ next.head? = some '}'))
      (hread : item registry next = .ok ((first, begun), more))
      (h : AsksInLoop item bound begun more asked place) :
      AsksInLoop item (bound + 1) registry text asked place

/-- Reading a block asks for its first item or, after that, for another one. -/
inductive AsksInBlock (item : Scoped (Item ε)) (registry : Registry) :
    List Char → Registry → List Char → Prop
  | first {inner next : List Char} (hskip : blankLines inner = .ok ((), next)) :
      AsksInBlock item registry ('{' :: inner) registry next
  | later {inner next more place : List Char} {first : Item ε} {begun asked : Registry}
      (hskip : blankLines inner = .ok ((), next))
      (hread : item registry next = .ok ((first, begun), more))
      (h : AsksInLoop item more.length begun more asked place) :
      AsksInBlock item registry ('{' :: inner) asked place

/-- What a parse asks an item for: how deep definitions may nest in it, the maps begun so far and
the text. -/
structure Attempt where
  bound : Nat
  registry : Registry
  text : List Char

/-- Reading an item asks for the item itself and, if it is a definition with a new name, for those
in its block. -/
inductive Asks (query : Parser ε) : Attempt → Attempt → Prop
  | itself (attempt : Attempt) : Asks query attempt attempt
  | inside {bound : Nat} {registry asked : Registry} {name : String} {asks : Attempt}
      {text afterKeyword afterName inner place gap : List Char}
      (hkeyword : mapKeyword text = .ok ((), afterKeyword))
      (hname : Parser.name afterKeyword = .ok (name, afterName)) (hnew : ¬registry.Knows name)
      (hgap : blanks afterName = .ok (gap, inner))
      (hblock : AsksInBlock (itemUpTo query bound) (registry.enter name) inner asked place)
      (h : Asks query ⟨bound, asked, place⟩ asks) : Asks query ⟨bound + 1, registry, text⟩ asks

/-- Reading the items of a program asks for the first and, after that, for the others. -/
inductive AsksInProgram (query : Parser ε) : Nat → Registry → List Char → Attempt → Prop
  | first {bound : Nat} {registry : Registry} {text : List Char} {asks : Attempt}
      (h : Asks query ⟨text.length, registry, text⟩ asks) :
      AsksInProgram query (bound + 1) registry text asks
  | later {bound : Nat} {registry begun : Registry} {text more next : List Char} {first : Item ε}
      {asks : Attempt} (hread : parse query registry text = .ok ((first, begun), more))
      (hline : NextLine more next) (hmore : next ≠ []) (h : AsksInProgram query bound begun next asks) :
      AsksInProgram query (bound + 1) registry text asks

/-- Reading a mapping asks for an item. -/
def AskedIn (query : Parser ε) (source : List Char) (asks : Attempt) : Prop :=
  ∃ text, blankLines source = .ok ((), text) ∧ AsksInProgram query text.length .empty text asks

/-- What comes of an attempt. -/
def Attempt.outcome (query : Parser ε) (attempt : Attempt) :
    Except Failure ((Item ε × Registry) × List Char) :=
  itemUpTo query attempt.bound attempt.registry attempt.text

section

variable {item : Scoped (Item ε)} {query : Parser ε} {registry asked : Registry}
  {text place : List Char} {failure : Failure}

theorem AsksInLoop.aborts {bound : Nat} (h : AsksInLoop item bound registry text asked place)
    (hfail : item asked place = .error failure) :
    moreInBlock item bound registry text = .error failure := by
  induction h with
  | next hline hmore =>
      rw [moreInBlock_of_nextLine item _ hline hmore]
      exact bind_of_error hfail _
  | later hline hmore hread _ ih =>
      rw [moreInBlock_of_nextLine item _ hline hmore, bind_of_ok hread]
      exact bind_of_error (ih hfail) _

theorem AsksInBlock.aborts (h : AsksInBlock item registry text asked place)
    (hfail : item asked place = .error failure) : block item registry text = .error failure := by
  cases h with
  | first hskip =>
      rw [block_of_brace item registry hskip]
      exact bind_of_error hfail _
  | later hskip hread hloop =>
      rw [block_of_brace item registry hskip, bind_of_ok hread]
      exact bind_of_error (hloop.aborts hfail) _

/-- The parse fails with this failure, which may have become final. -/
def Passes {α : Type} (failure : Failure) (result : Except Failure α) : Prop :=
  result = .error failure ∨ result = .error { failure with committed := true }

/-- A failure in the block of a definition is final for the definition. -/
theorem Asks.aborts {attempt asks : Attempt} (h : Asks query attempt asks)
    (hfail : asks.outcome query = .error failure) : Passes failure (attempt.outcome query) := by
  induction h with
  | itself attempt => exact .inl hfail
  | inside hkeyword hname hnew hgap hblock _ ih =>
      refine .inr (orElse_of_committed ?_ rfl _)
      rcases ih hfail with hinner | hinner
      all_goals
        have hmap := mapForm_of_failed_block hkeyword hname hnew hgap (hblock.aborts hinner)
        exact hmap

theorem AsksInProgram.aborts {bound : Nat} {asks : Attempt}
    (h : AsksInProgram query bound registry text asks) (hfail : asks.outcome query = .error failure) :
    Passes failure (programUpTo query bound registry text) := by
  induction h with
  | first h =>
      rw [programUpTo]
      exact (h.aborts hfail).imp (bind_of_error · _) (bind_of_error · _)
  | later hread hline hmore _ ih =>
      rw [programUpTo_of_nextLine hread hline, if_neg (by simpa using hmore)]
      exact (ih hfail).imp (bind_of_error · _) (bind_of_error · _)

/-- The failure of an item that is asked for is the failure of the parse. -/
theorem AskedIn.aborts {source : List Char} {asks : Attempt} (h : AskedIn query source asks)
    (hfail : asks.outcome query = .error failure) : Passes failure (program query source) := by
  obtain ⟨text, hskip, hasks⟩ := h
  rw [program, bind_of_ok hskip, bind_of_ok (here_eq_ok text)]
  exact hasks.aborts hfail

/-- It is reported at its place and with its cause. -/
theorem AskedIn.parseWith_of_fails {source : List Char} {asks : Attempt}
    (h : AskedIn query source asks) (hfail : asks.outcome query = .error failure)
    (file : Option String) :
    Plan.parseWith query file source =
      .error ⟨file, lineAt source (source.length - failure.rest.length),
        columnAt source (source.length - failure.rest.length) + 1, failure.cause⟩ := by
  rcases h.aborts hfail with herror | herror
  · exact Plan.parseWith_of_error herror file
  · exact Plan.parseWith_of_error herror file

end

section

variable {region : Region}

theorem NextLine.place {text next : List Char} (h : NextLine text next)
    (htext : region.Place text) : region.Place next := by
  obtain ⟨taken, middle, hline, hskip⟩ := h
  have hend : region.Admits (do let _ ← blanks; lineBreak) :=
    (region.run_admitted isSpaceOrTab).bind fun _ _ => region.lineBreak_admitted
  exact region.blankLines_admitted.place (hend.place htext hline) hskip

theorem mapKeyword_admitted : region.Admits mapKeyword :=
  (region.keyword_admitted "map").bind fun _ _ =>
    (region.token_admitted .blanks isSpaceOrTab).bind fun _ _ => Region.admits_pure ()

variable {item : Scoped (Item ε)} {P : Item ε × Registry → Prop} {registry asked : Registry}
  {text reached : List Char} (hitem : ∀ registry, region.Keeps (item registry) P)

include hitem

/-- What a parse asks for is in the region in which the parse is. -/
theorem AsksInLoop.place {bound : Nat} (h : AsksInLoop item bound registry text asked reached)
    (htext : region.Place text) : region.Place reached := by
  induction h with
  | next hline hmore => exact hline.place htext
  | later hline hmore hread _ ih => exact ih ((hitem _).place (hline.place htext) hread)

theorem AsksInBlock.place (h : AsksInBlock item registry text asked reached)
    (htext : region.Place text) : region.Place reached := by
  cases h with
  | first hskip =>
      exact region.blankLines_admitted.place
        (region.place_of_suffix htext (List.suffix_cons _ _)) hskip
  | later hskip hread hloop =>
      have hnext := region.blankLines_admitted.place
        (region.place_of_suffix htext (List.suffix_cons _ _)) hskip
      exact hloop.place hitem ((hitem _).place hnext hread)

end

section

variable {region : SourceRegion} {query : Parser ε} (hquery : region.Admits query)

include hquery

theorem Asks.place {attempt asks : Attempt} (h : Asks query attempt asks)
    (htext : region.Place attempt.text) : region.Place asks.text := by
  induction h with
  | itself attempt => exact htext
  | inside hkeyword hname _ hgap hblock _ ih =>
      have hafter := region.name_admitted.place (mapKeyword_admitted.place htext hkeyword) hname
      have hinner := (region.run_admitted isSpaceOrTab).place hafter hgap
      exact ih (hblock.place (itemUpTo_keeps hquery _) hinner)

theorem AsksInProgram.place {bound : Nat} {registry : Registry} {text : List Char}
    {asks : Attempt} (h : AsksInProgram query bound registry text asks)
    (htext : region.Place text) : region.Place asks.text := by
  induction h with
  | first h => exact h.place hquery htext
  | later hread hline _ _ ih =>
      exact ih (hline.place ((itemUpTo_keeps hquery _ _).place htext hread))

theorem AskedIn.place {source : List Char} {asks : Attempt} (h : AskedIn query source asks)
    (hsource : region.Place source) : region.Place asks.text := by
  obtain ⟨text, hskip, hasks⟩ := h
  exact hasks.place hquery (region.blankLines_admitted.place hsource hskip)

end

section

variable {query : Parser ε} (hquery : ∀ limit, Confined limit query)

include hquery

omit hquery in
theorem mapKeyword_shortens {text rest : List Char} (h : mapKeyword text = .ok ((), rest)) :
    rest.length < text.length := by
  obtain ⟨_, middle, hword, hgap⟩ := bind_eq_ok h
  obtain ⟨_, _, hgap, hdone⟩ := bind_eq_ok hgap
  cases hdone
  have hlt := token_progresses .blanks _ _ _ hgap
  rw [keyword_eq_ok hword, List.length_append]
  omega

/-- A definition begins with its keyword, so its block has fewer characters left than it has. -/
theorem Asks.length_le {attempt asks : Attempt} (h : Asks query attempt asks)
    (hlength : attempt.text.length ≤ attempt.bound) : asks.text.length ≤ asks.bound := by
  induction h with
  | itself attempt => exact hlength
  | @inside bound registry asked name asks text afterKeyword afterName inner place gap hkeyword
      hname _ hgap hblock _ ih =>
      have hshorter : afterKeyword.length ≤ bound :=
        Nat.le_of_lt_succ (Nat.lt_of_lt_of_le (mapKeyword_shortens hkeyword) hlength)
      have hitem := itemUpTo_keeps (within_iff_keeps.mp (hquery bound)) bound
      have hafter := (SourceRegion.last bound).name_admitted.place hshorter hname
      have hinner := ((SourceRegion.last bound).run_admitted isSpaceOrTab).place hafter hgap
      exact ih (hblock.place hitem hinner)

theorem AsksInProgram.length_le {bound : Nat} {registry : Registry} {text : List Char}
    {asks : Attempt} (h : AsksInProgram query bound registry text asks) :
    asks.text.length ≤ asks.bound := by
  induction h with
  | first h => exact h.length_le hquery (Nat.le_refl _)
  | later _ _ _ _ ih => exact ih

theorem AskedIn.length_le {source : List Char} {asks : Attempt} (h : AskedIn query source asks) :
    asks.text.length ≤ asks.bound := by
  obtain ⟨text, -, hasks⟩ := h
  exact hasks.length_le hquery

/-- Where the parse of a mapping asks for an item in a text that is refused however deep in a block
it stands, it fails with the failure of the item. -/
theorem AskedIn.parseWith_of_refused {source : List Char} {asks : Attempt} {failure : Failure}
    (h : AskedIn query source asks) (hne : asks.text ≠ [])
    (hrefused : ∀ (bound : Nat) (registry : Registry),
      itemUpTo query (bound + 1) registry asks.text = .error failure) (file : Option String) :
    Plan.parseWith query file source =
      .error ⟨file, lineAt source (source.length - failure.rest.length),
        columnAt source (source.length - failure.rest.length) + 1, failure.cause⟩ := by
  refine h.parseWith_of_fails ?_ file
  have hlength := h.length_le hquery
  rw [Attempt.outcome]
  cases hbound : asks.bound with
  | zero =>
      rw [hbound, Nat.le_zero, List.length_eq_zero_iff] at hlength
      exact absurd hlength hne
  | succ bound => exact hrefused bound asks.registry

end

end Remap.Item
