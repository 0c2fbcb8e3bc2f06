import Remap.Proofs.JoinedMappings
import Remap.Proofs.StoredDocuments

/-!
Copied fields.  A mapping of one statement that assigns a path of the input document to a path of
the output document, both written without quotes.  Its text is read as the keys of the two paths,
which are the same keys for the same text, and a run leaves a document with nothing but the copy.
-/

namespace Remap

open Remap.Parser

namespace DotPath

variable {path : String}

theorem split_root (path : String) :
    split '.' ("root." ++ path).toList = "root".toList :: split '.' path.toList := by
  have hroot : '.' ∉ "root".toList := by decide
  rw [String.toList_append]
  exact split_append_separator hroot path.toList

theorem keys_root (path : String) : keys ("root." ++ path) = "root" :: keys path := by
  rw [keys, split_root]
  rfl

theorem IsBare.root (h : IsBare isBareNameChar path) : IsBare isBareNameChar ("root." ++ path) := by
  rw [IsBare, split_root, List.forall_mem_cons]
  exact ⟨by decide, h⟩

end DotPath

section

variable {path : String} {rest : List Char}

/-- A bare path is a bare name. -/
def WrittenName.ofPath (h : DotPath.IsBare isBareNameChar path) : WrittenName :=
  .bare ⟨path.toList, List.all_eq_true.mpr fun c hc => by
    rcases h.of_mem hc with rfl | hclass
    · decide
    · exact hclass⟩ h.toList_ne_nil

namespace Item

theorem targetSegments_root (path : String) :
    targetSegments ("root." ++ path) = DotPath.keys path := by
  simp only [targetSegments, DotPath.keys_root]

theorem targetPath_of_isBare (h : DotPath.IsBare isBareNameChar path)
    (hrest : Opens (!isBareNameChar ·) rest) :
    targetPath (path.toList ++ rest) = .ok (targetSegments path, rest) := by
  have hname : name (path.toList ++ rest) = .ok (String.ofList path.toList, rest) :=
    (WrittenName.ofPath h).name_append hrest
  rw [String.ofList_toList] at hname
  rw [targetPath, bind_of_ok (here_eq_ok _), bind_of_ok (expect_of_ok hname _),
    h.firstEmptyPart_eq_none]
  rfl

end Item

namespace Expr

open Grammar

/-- A bare path with a point before it is made of segments. -/
theorem exists_segments (h : DotPath.IsBare isSegmentChar path) :
    ∃ written : List (TextOf isSegmentChar),
      written.map TextOf.chars = DotPath.split '.' path.toList ∧
        segmentsText written = '.' :: path.toList := by
  -- a segment carries the class of its characters, which is a fact about each part of the path
  let written : List (TextOf isSegmentChar) :=
    (DotPath.split '.' path.toList).pmap TextOf.mk fun part hpart => (h part hpart).2
  have hchars : written.map TextOf.chars = DotPath.split '.' path.toList := by
    simp [written, List.map_pmap]
  have htext : segmentsText written = (written.map TextOf.chars).flatMap ('.' :: ·) := by
    rw [List.flatMap_map, segmentsText]
  rw [hchars, DotPath.flatMap_split] at htext
  exact ⟨written, hchars, htext⟩

theorem parse_this (h : DotPath.IsBare isSegmentChar path) (hrest : Opens isDelimiter rest) :
    Expr.parse ("this".toList ++ ('.' :: path.toList ++ rest)) =
      .ok (.document (DotPath.keys path), rest) := by
  obtain ⟨written, hchars, htext⟩ := exists_segments h
  have hne : ∀ segment ∈ written, segment.chars ≠ [] := by
    intro segment hsegment
    have hpart := List.mem_map_of_mem (f := TextOf.chars) hsegment
    rw [hchars] at hpart
    exact (h segment.chars hpart).1
  have hread : documentPath (segmentsText written ++ rest) =
      .ok (.document (DotPath.keys path), rest) := by
    rw [documentPath]
    refine (bind_of_ok (many_segmentsText hne hrest) _).trans ?_
    rw [hchars, DotPath.flatMap_keys_split]
    rfl
  rw [← htext]
  exact expression_of_word (by simp) (word_this (opens_segmentsText written hrest) hread)

end Expr

end

/-- The text of a statement that copies a field of the input document. -/
def copyText (target source : String) : String :=
  "root." ++ target ++ " = this." ++ source

section

variable {target source : String} {rest : List Char}

theorem toList_copyText (target source : String) (rest : List Char) :
    (copyText target source).toList ++ rest =
      ("root." ++ target).toList ++ (" = ".toList ++ ("this".toList ++
        ('.' :: source.toList ++ rest))) := by
  simp [copyText]

namespace Item

theorem assigned_this (h : DotPath.IsBare Expr.Grammar.isSegmentChar source)
    (hrest : Opens isDelimiter rest) :
    assigned Expr.parse (" = ".toList ++ ("this".toList ++ ('.' :: source.toList ++ rest))) =
      .ok (.document (DotPath.keys source), rest) := by
  let padding : Blanks := ⟨[' '], rfl⟩
  have hopens : Opens (!isSpaceOrTab ·) ("this".toList ++ ('.' :: source.toList ++ rest)) := by
    simp [isSpaceOrTab]
  exact assigned_append padding padding hopens (Expr.parse_this h hrest)

variable (htarget : DotPath.IsBare isBareNameChar target)
  (hsource : DotPath.IsBare Expr.Grammar.isSegmentChar source)

include htarget hsource

theorem pathForm_copyText (hrest : Opens isDelimiter rest) :
    pathForm Expr.parse ((copyText target source).toList ++ rest) =
      .ok (.assign ((copyText target source).toList ++ rest).length
        (.path (DotPath.keys target)) (.document (DotPath.keys source)), rest) := by
  have hblank : Opens (!isBareNameChar ·)
      (" = ".toList ++ ("this".toList ++ ('.' :: source.toList ++ rest))) := by
    simp [isBareNameChar, isAsciiAlphanum]
  have hpath := targetPath_of_isBare htarget.root hblank
  rw [targetSegments_root] at hpath
  rw [toList_copyText]
  exact pathForm_of_ok hpath (assigned_this hsource hrest)

theorem parse_copyText (hrest : Opens isDelimiter rest) (registry : Registry) :
    parse Expr.parse registry ((copyText target source).toList ++ rest) =
      .ok ((.assign ((copyText target source).toList ++ rest).length
        (.path (DotPath.keys target)) (.document (DotPath.keys source)), registry), rest) := by
  have hform := pathForm_copyText htarget hsource hrest
  -- the forms with a keyword are tried first, and the text begins with none of the keywords
  have hmap : after? "map".toList ((copyText target source).toList ++ rest) = none := by
    simp [copyText, after?]
  have hlet : after? "let".toList ((copyText target source).toList ++ rest) = none := by
    simp [copyText, after?]
  have hmeta : after? "meta".toList ((copyText target source).toList ++ rest) = none := by
    simp [copyText, after?]
  have hne : (copyText target source).toList ++ rest ≠ [] := by
    simp [copyText]
  apply parse_of_assignment hne (mapKeyword_misses hmap)
  exact orElse_of_misses (letForm_misses hlet) (orElse_of_misses (metaForm_misses hmeta) hform)

end Item

end

/-- The statement in outline. -/
def AssignmentText.copy {target source : String} (htarget : DotPath.IsBare isBareNameChar target)
    (hsource : DotPath.IsBare Expr.Grammar.isSegmentChar source) : AssignmentText Expr.parse where
  text := (copyText target source).toList
  target := .path (DotPath.keys target)
  expr := .document (DotPath.keys source)
  reads _ hrest :=
    Item.parse_copyText htarget hsource (hrest.mono isDelimiter_of_isItemEnd) .empty

/-- Single-field objects, one in the other, and a value in the innermost one. -/
def Value.nest (value : Value) : List String → Value
  | [] => value
  | key :: rest => .object [(key, value.nest rest)]

/-- Writing into an empty document. -/
theorem Value.set_empty (value : Value) (path : List String) :
    (Value.object []).set path value = .ok (value.nest path) := by
  induction path with
  | nil => rfl
  | cons key rest ih =>
      rw [Value.set, Entries.find?, Option.getD_none, ih]
      rfl

namespace Plan

/-- The plan of one statement, on the first line, that copies what is at one path to another. -/
def copy (target source : List String) : Plan Expr where
  maps := .empty
  statements := [⟨1, .path target, .document source⟩]

variable {target source : String}

theorem parse_copyText (htarget : DotPath.IsBare isBareNameChar target)
    (hsource : DotPath.IsBare Expr.Grammar.isSegmentChar source) (file : Option String) :
    parse file (copyText target source).toList =
      .ok (copy (DotPath.keys target) (DotPath.keys source)) := by
  let gap : Gap := ⟨[], .empty⟩
  let outline : Outline Expr.parse :=
    ⟨gap, .last (.assign (.copy htarget hsource)), ⟨gap, none⟩⟩
  have htext : outline.text = (copyText target source).toList := List.append_nil _
  have hitems : outline.items = [.assign outline.text.length (.path (DotPath.keys target))
      (.document (DotPath.keys source))] := by
    rw [htext]
    rfl
  -- all of the text remains at the statement, so nothing is before it and it is on the first line
  have hline : lineOfRemaining outline.text outline.text.length = 1 :=
    lineOfRemaining_append [] outline.text
  have hplan : outline.plan = copy (DotPath.keys target) (DotPath.keys source) := by
    rw [Outline.plan, hitems, ofItems, Item.statements, List.filterMap_cons, Item.statement?, hline]
    rfl
  rw [← htext]
  exact Outline.parseWith_eq_ok_iff.mpr ⟨List.nodup_nil, hplan⟩

/-- The statement that copies a field is read as one that writes the keys of the one path text what
is found at the keys of the other, so both texts are split into keys in the same way.  A run on a
part that holds a document leaves the field's value, or null if it has none, in the innermost of
single-field objects with the keys of the target, and changes nothing else. -/
theorem copyText_copies_field (htarget : DotPath.IsBare isBareNameChar target)
    (hsource : DotPath.IsBare Expr.Grammar.isSegmentChar source) (file : Option String) :
    parse file (copyText target source).toList =
        .ok (copy (DotPath.keys target) (DotPath.keys source)) ∧
      ∀ (batch : Batch) (index : Nat) (part : Part) (document : Value),
        batch.get index = .ok part → part.document? = some document →
        (copy (DotPath.keys target) (DotPath.keys source)).mapPart index batch =
          (.ok (), ⟨batch.parts.set index { part with
            content := Utf8.encode (Json.print
              (((document.get? (DotPath.keys source)).getD .null).nest (DotPath.keys target))) }⟩) := by
  refine ⟨parse_copyText htarget hsource file, ?_⟩
  intro batch index part document hpart hdocument
  let plan := copy (DotPath.keys target) (DotPath.keys source)
  let value := (document.get? (DotPath.keys source)).getD .null
  have hvalue : plan.evalPart part index (.document (DotPath.keys source)) (.start batch) =
      (.ok value, .start batch) := by
    rw [evalPart, hdocument]
    rfl
  -- the statement writes into the empty document that a run starts with
  have hrun := execPart_of_onePath rfl hvalue hpart (value.set_empty (DotPath.keys target))
  have hmap : plan.mapPart index batch =
      (.ok (), batch.commit index (some (value.nest (DotPath.keys target)))) := by
    rw [mapPart_eq_commit hpart (congrArg Prod.fst hrun), hrun]
    rfl
  rw [hmap, Batch.commit_eq_set hpart]
  rfl

/-- Escapes, a segment that looks like an index and a second `root`. -/
theorem copyText_copies_field_of_escapes :
    parse none "root.root.0.a~1b = this.items.0.x~0y".toList =
        .ok (copy ["root", "0", "a.b"] ["items", "0", "x~y"]) ∧
      (copy ["root", "0", "a.b"] ["items", "0", "x~y"]).mapPart 0
          (.ofContents [Utf8.encode "\x7b\"items\":[\x7b\"x~y\":7\x7d]\x7d".toList]) =
        (.ok (), .ofContents
          [Utf8.encode "\x7b\"root\":\x7b\"0\":\x7b\"a.b\":7\x7d\x7d\x7d".toList]) := by
  have htarget : DotPath.IsBare isBareNameChar "root.0.a~1b" := by
    rw [DotPath.IsBare]
    decide +kernel
  have hsource : DotPath.IsBare Expr.Grammar.isSegmentChar "items.0.x~0y" := by
    rw [DotPath.IsBare]
    decide +kernel
  have htargetKeys : DotPath.keys "root.0.a~1b" = ["root", "0", "a.b"] := by decide +kernel
  have hsourceKeys : DotPath.keys "items.0.x~0y" = ["items", "0", "x~y"] := by decide +kernel
  let seven : Value := .number (.integer 7 (by decide) (by decide))
  have hdocument : Part.document? (.ofContent
      (Utf8.encode "\x7b\"items\":[\x7b\"x~y\":7\x7d]\x7d".toList)) =
      some (.object [("items", .array [.object [("x~y", seven)]])]) := by
    rfl
  have hprint : Json.print (seven.nest ["root", "0", "a.b"]) =
      "\x7b\"root\":\x7b\"0\":\x7b\"a.b\":7\x7d\x7d\x7d".toList := by
    rfl
  obtain ⟨hparse, hmap⟩ := copyText_copies_field htarget hsource none
  rw [htargetKeys, hsourceKeys] at hparse hmap
  have hcopied := hmap (.ofContents [_]) 0 _ _ rfl hdocument
  have hfound : (Value.object [("items", .array [.object [("x~y", seven)]])]).get?
      ["items", "0", "x~y"] = some seven := by
    rfl
  rw [hfound, Option.getD_some, hprint] at hcopied
  exact ⟨hparse, hcopied⟩

end Plan

end Remap
