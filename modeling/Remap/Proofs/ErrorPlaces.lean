import Remap.Proofs.EncodedText
import Remap.Proofs.RefusedTargets

/-!
Places of syntax errors.  An error is at an offset of the source, and what is there explains it: a
character that was expected is missing, a definition begins whose name is taken, or a target has an
empty segment.
-/

namespace Remap

open Remap.Parser

/-- What a text must look like at a place to bear a cause out. -/
def Cause.BorneOut (place : List Char) : Cause → Prop
  | .missingChar c => place.head? ≠ some c
  | .mapCollision _ => "map".toList <+: place
  | _ => True

/-- In a source every failure is at one of its ends and borne out there. -/
def endsOf (source : List Char) : SourceRegion where
  Place text := text <:+ source
  Fault place cause := place <:+ source ∧ cause.BorneOut place
  place_of_suffix htext hrest := hrest.trans htext
  missing hplace hhead := ⟨hplace, hhead⟩
  plain {_ cause} hplace hplain := by
    refine ⟨hplace, ?_⟩
    cases cause <;> trivial
  collision hplace hmap := ⟨hplace, hmap⟩
  emptySegment hplace := ⟨hplace, trivial⟩

/-- The bytes before a place are UTF-8, and they write the text before it. -/
theorem Utf8.decode_take_encode (before rest : List Char) :
    decode ((encode (before ++ rest)).take
      ((encode (before ++ rest)).length - (encode rest).length)) = .ok before := by
  rw [encode_append, List.length_append, Nat.add_sub_cancel, List.take_left, decode_encode]

/-- In a bare target that begins at an offset there is an empty segment at another one: it is at
the beginning or after a dot, and a dot, a character that a bare path cannot have or nothing
follows. -/
structure EmptyAt (source : List Char) (start offset : Nat) : Prop where
  opened : offset = start ∨ start < offset ∧ source[offset - 1]? = some '.'
  closed : source[offset]? = some '.' ∨ Opens (!isBareNameChar ·) (source.drop offset)

theorem emptyAt_iff {front before after : List Char} :
    EmptyAt (front ++ (before ++ after)) front.length (front ++ before).length ↔
      (before = [] ∨ ∃ opening, before = opening ++ ['.']) ∧
        (after.head? = some '.' ∨ Opens (!isBareNameChar ·) after) := by
  have hdrop : (front ++ (before ++ after)).drop (front ++ before).length = after := by
    rw [← List.append_assoc, List.drop_left]
  have hhead : (front ++ (before ++ after))[(front ++ before).length]? = after.head? := by
    rw [← List.head?_drop, hdrop]
  have hopened : (front ++ before).length = front.length ∨ front.length < (front ++ before).length ∧
      (front ++ (before ++ after))[(front ++ before).length - 1]? = some '.' ↔
        before = [] ∨ ∃ opening, before = opening ++ ['.'] := by
    rcases List.eq_nil_or_concat before with rfl | ⟨opening, c, rfl⟩
    · simp
    · have hlast : (front ++ (opening.concat c ++ after))[(front ++ opening.concat c).length - 1]? =
          some c := by
        rw [List.concat_eq_append, List.length_append, List.length_append, List.length_singleton,
          ← Nat.add_assoc, Nat.add_sub_cancel, ← List.length_append, List.append_assoc,
          ← List.append_assoc, ← List.head?_drop, List.drop_left]
        rfl
      rw [hlast]
      simp
  have hclosed : (front ++ (before ++ after))[(front ++ before).length]? = some '.' ∨
      Opens (!isBareNameChar ·) ((front ++ (before ++ after)).drop (front ++ before).length) ↔
        after.head? = some '.' ∨ Opens (!isBareNameChar ·) after := by
    rw [hhead, hdrop]
  exact ⟨fun h => ⟨hopened.mp h.opened, hclosed.mp h.closed⟩,
    fun h => ⟨hopened.mpr h.1, hclosed.mpr h.2⟩⟩

namespace WrittenName

/-- A target that begins at an offset of the source is refused at another one: at its opening quote,
or in a bare target at its first empty segment. -/
def RefusedAt (source : List Char) (start offset : Nat) : WrittenName → Prop
  | .quoted _ => offset = start ∧ source[offset]? = some '"'
  | .bare _ _ => start ≤ offset ∧ EmptyAt source start offset ∧
      ∀ earlier, start ≤ earlier → earlier < offset → ¬EmptyAt source start earlier

variable {target : WrittenName} {front rest place : List Char}

theorem EmptySegmentAt.refusedAt (h : target.EmptySegmentAt rest place)
    (hends : target.EndsBefore rest) (front : List Char) :
    ∃ before, front ++ (target.text ++ rest) = before ++ place ∧
      target.RefusedAt (front ++ (target.text ++ rest)) front.length before.length := by
  cases target with
  | quoted chars =>
      obtain ⟨-, rfl⟩ := h
      refine ⟨front, rfl, rfl, ?_⟩
      rw [← List.head?_drop, List.drop_left]
      rfl
  | bare text nonempty =>
      obtain ⟨before, after, htext, hfirst, rfl⟩ := h
      have hsource : front ++ ((bare text nonempty).text ++ rest) =
          front ++ (before ++ (after ++ rest)) := by
        rw [WrittenName.text, htext, List.append_assoc]
      rw [hsource]
      refine ⟨front ++ before, (List.append_assoc front before _).symm, ?_, ?_, ?_⟩
      · rw [List.length_append]
        exact Nat.le_add_right _ _
      · refine emptyAt_iff.mpr ⟨hfirst.opened, ?_⟩
        rcases hfirst.closed with rfl | ⟨back, rfl⟩
        · exact .inr hends
        · exact .inl rfl
      · -- an earlier one would be an earlier empty segment of the path text
        intro earlier hstart hearlier hempty
        obtain ⟨opening, later, rfl, hlength⟩ :
            ∃ opening later, before = opening ++ later ∧ earlier = (front ++ opening).length := by
          refine ⟨before.take (earlier - front.length), before.drop (earlier - front.length),
            (List.take_append_drop _ _).symm, ?_⟩
          rw [List.length_append] at hearlier ⊢
          rw [List.length_take]
          omega
        rw [hlength, List.append_assoc] at hempty
        obtain ⟨hopened, hclosed⟩ := emptyAt_iff.mp hempty
        cases later with
        | nil => simp [hlength] at hearlier
        | cons c later =>
            refine hfirst.first opening (c :: later) rfl (List.cons_ne_nil c later) ⟨hopened, ?_⟩
            rcases hclosed with hdot | hopens
            · obtain rfl : c = '.' := Option.some.inj hdot
              exact .inr ⟨later ++ after, rfl⟩
            · have hbare : isBareNameChar c = true := text.of_mem (by simp [htext])
              simp [hbare] at hopens

end WrittenName

namespace Item

variable {source : List Char} {failure : Failure} {path : String}

/-- A parse asks for an item of the path form at an offset of the source where this target is. -/
def AsksForTarget (source : List Char) (start : Nat) (target : WrittenName) : Prop :=
  ∃ (asks : Attempt) (rest : List Char), AskedIn Expr.parse source asks ∧
    Form.path.Announced asks.text ∧ asks.text = source.drop start ∧
      asks.text = target.text ++ rest ∧ target.EndsBefore rest

/-- A failure is at an end of the source that bears it out. -/
theorem exists_place (h : program Expr.parse source = .error failure) :
    ∃ before, source = before ++ failure.rest ∧ failure.cause.BorneOut failure.rest := by
  have hquery : (endsOf source).Admits Expr.parse := Expr.parse_admitted _
  obtain ⟨⟨before, hbefore⟩, hcause⟩ := (program_keeps hquery).fault (List.suffix_refl source) h
  exact ⟨before, hbefore.symm, hcause⟩

/-- A target with an empty segment is refused where an item was asked for. -/
theorem exists_refusedAt_of_program (hcause : failure.cause = .emptyPathSegment path)
    (h : program Expr.parse source = .error failure) {before : List Char}
    (hbefore : source = before ++ failure.rest) :
    ∃ start target, AsksForTarget source start target ∧ target.name = path ∧
      target.RefusedAt source start before.length := by
  obtain ⟨asks, hasks, hpath, target, rest, htext, hends, hname, hplace⟩ :=
    exists_askedIn (Expr.parse_admitted _) hcause h
  have hquery : (endsOf source).Admits Expr.parse := Expr.parse_admitted _
  obtain ⟨front, hfront⟩ := hasks.place hquery (List.suffix_refl source)
  have hstart : asks.text = source.drop front.length := by
    rw [← hfront, List.drop_left]
  obtain ⟨earlier, hearlier, hrefused⟩ := hplace.refusedAt hends front
  rw [← htext, hfront] at hearlier hrefused
  rw [hbefore] at hearlier
  obtain rfl := List.append_cancel_right hearlier
  exact ⟨front.length, target, ⟨asks, rest, hasks, hpath, hstart, htext, hends⟩, hname, hrefused⟩

end Item

namespace Plan

/-- Every error of a parse is at an offset of the source, found by the length of the text that was
left, in characters as in bytes, and has its line and its column.  There, an expected character is
missing, a definition begins whose name collides, and of a target with an empty segment the opening
quote stands or, if it is bare, the first empty segment. -/
theorem error_has_place {file : Option String} {source : List Char} {error : ParseError}
    (h : parse file source = .error error) :
    ∃ (offset : Nat) (failure : Failure), offset ≤ source.length ∧
      error.line = lineAt source offset ∧ error.column = columnAt source offset + 1 ∧
      Item.program Expr.parse source = .error failure ∧ failure.cause = error.cause ∧
      failure.rest = source.drop offset ∧
      Utf8.decode ((Utf8.encode source).take
        ((Utf8.encode source).length - (Utf8.encode failure.rest).length)) =
          .ok (source.take offset) ∧
      error.cause.BorneOut (source.drop offset) ∧
      ∀ path, error.cause = .emptyPathSegment path →
        ∃ start target, Item.AsksForTarget source start target ∧ target.name = path ∧
          target.RefusedAt source start offset := by
  obtain ⟨failure, hfails, rfl⟩ := exists_failure_of_parseWith h
  obtain ⟨before, hbefore, hcause⟩ := Item.exists_place hfails
  have hoffset : source.length - failure.rest.length = before.length := by
    rw [hbefore, List.length_append, Nat.add_sub_cancel]
  have hdrop : source.drop before.length = failure.rest := by
    rw [hbefore, List.drop_left]
  have htake : source.take before.length = before := by
    rw [hbefore, List.take_left]
  refine ⟨before.length, failure, ?_, ?_, ?_, hfails, rfl, hdrop.symm, ?_, ?_, ?_⟩
  · rw [← hoffset]
    exact Nat.sub_le _ _
  · rw [← hoffset]
  · rw [← hoffset]
  · rw [htake, hbefore]
    exact Utf8.decode_take_encode before failure.rest
  · rw [hdrop]
    exact hcause
  · intro path hpath
    exact Item.exists_refusedAt_of_program hpath hfails hbefore

/-- Characters of several bytes before a bare target with an empty segment. -/
def emptySegmentAfterAccents : List Char :=
  "\"é\" = \"ü→\" # ñ\nb..c = 2".toList

theorem error_has_place_of_accents :
    parse none emptySegmentAfterAccents = .error ⟨none, 2, 3, .emptyPathSegment "b..c"⟩ ∧
      ∃ (offset : Nat) (start : Nat) (target : WrittenName),
        2 = lineAt emptySegmentAfterAccents offset ∧
        3 = columnAt emptySegmentAfterAccents offset + 1 ∧
        Item.AsksForTarget emptySegmentAfterAccents start target ∧ target.name = "b..c" ∧
        target.RefusedAt emptySegmentAfterAccents start offset := by
  have hparse : parse none emptySegmentAfterAccents =
      .error ⟨none, 2, 3, .emptyPathSegment "b..c"⟩ :=
    eq_error_of_match (by decide +kernel)
  obtain ⟨offset, failure, -, hline, hcolumn, -, -, -, -, -, hempty⟩ := error_has_place hparse
  obtain ⟨start, target, hasks, hname, hrefused⟩ := hempty "b..c" rfl
  exact ⟨hparse, offset, start, target, hline, hcolumn, hasks, hname, hrefused⟩

end Plan

end Remap
