import Remap.Mapping.Grammar
import Remap.Proofs.SpelledProgram

/-!
The forms of an item, each on a text of its own.  The first characters tell which form a text has,
and every form is read up to the delimiter after its expression or to its closing brace.
-/

namespace Remap

open Remap.Parser

namespace Parser

variable {rest : List Char}

theorem here_eq_ok (text : List Char) : here text = .ok (text, text) := rfl

theorem keyword_append (word : String) (rest : List Char) :
    keyword word (word.toList ++ rest) = .ok ((), rest) := by
  have hafter : after? word.toList (word.toList ++ rest) = some rest := after?_eq_some.mpr rfl
  simp only [keyword, hafter]

theorem keyword_of_none {word : String} {text : List Char} (h : after? word.toList text = none) :
    keyword word text = .error ⟨false, text, .missingToken .keyword⟩ := by
  simp only [keyword, h, miss]

theorem keyword_misses {word : String} {text : List Char} (h : after? word.toList text = none) :
    Misses (keyword word) text :=
  ⟨_, keyword_of_none h, rfl⟩

end Parser

theorem SpelledName.isSpaceOrTab_of_isStart (c : Char) (h : isStart c = true) :
    isSpaceOrTab c = false := by
  cases hspace : isSpaceOrTab c with
  | false => rfl
  | true =>
      simp only [isSpaceOrTab, Bool.or_eq_true, decide_eq_true_eq] at hspace
      rcases hspace with rfl | rfl <;> revert h <;> decide

theorem SpelledName.opens_text_not_blank (name : SpelledName) (rest : List Char) :
    Opens (!isSpaceOrTab ·) (name.text ++ rest) :=
  (name.opens_text rest).apart isSpaceOrTab_of_isStart

namespace SpelledValue

/-- The characters with which an assignment goes on after its target. -/
def isStart (c : Char) : Bool :=
  isSpaceOrTab c || c = '='

theorem isBareNameChar_of_isStart (c : Char) (h : isStart c = true) : isBareNameChar c = false := by
  simp only [isStart, isSpaceOrTab, Bool.or_eq_true, decide_eq_true_eq] at h
  rcases h with (rfl | rfl) | rfl <;> decide

theorem opens_text (value : SpelledValue) (rest : List Char) :
    Opens isStart (value.text ++ rest) := by
  rw [text, List.append_assoc]
  refine Opens.append (value.beforeSign.opens.mono fun c hc => ?_) ?_
  · simp [isStart, hc]
  · simp [isStart]

theorem opens_text_not_name (value : SpelledValue) (rest : List Char) :
    Opens (!isBareNameChar ·) (value.text ++ rest) :=
  (value.opens_text rest).apart isBareNameChar_of_isStart

end SpelledValue

namespace Item

variable {rest : List Char}

/-- An equals sign, blanks around it or not, and what a parser of queries reads. -/
theorem assigned_append {ε : Type} {query : Parser ε} {value : ε} {source : List Char}
    (before after : Blanks) (hopens : Opens (!isSpaceOrTab ·) source)
    (h : query source = .ok (value, rest)) :
    assigned query (before.chars ++ '=' :: (after.chars ++ source)) = .ok (value, rest) := by
  have hsign : Opens (!isSpaceOrTab ·) ('=' :: (after.chars ++ source)) := by
    simp [isSpaceOrTab]
  have hbetween : (do
      let _ ← blanks
      char '='
      let _ ← blanks : Parser Unit) (before.chars ++ '=' :: (after.chars ++ source)) =
        .ok ((), source) := by
    rw [bind_of_ok (blanks_append before hsign), bind_of_ok (char_cons '=' _),
      bind_of_ok (blanks_append after hopens)]
    rfl
  rw [assigned, bind_of_ok (commit_of_ok hbetween)]
  exact commit_of_ok h

theorem assigned_text (value : SpelledValue) (h : Opens isDelimiter rest) :
    assigned Expr.parse (value.text ++ rest) = .ok (value.expr.expr, rest) := by
  have hexpr : Opens (!isSpaceOrTab ·) (value.expr.text ++ rest) := by
    refine (value.expr.opens_text_not_blank rest).mono fun c hc => ?_
    simp only [isSpaceTabOrBreak, Bool.not_eq_true', Bool.or_eq_false_iff] at hc
    simp [isSpaceOrTab, hc]
  have hread := assigned_append value.beforeSign value.afterSign hexpr
    (Expr.parse_text value.expr h)
  rw [SpelledValue.text, List.append_assoc, List.cons_append, List.append_assoc]
  exact hread

theorem letForm_text (gap : Blanks1) (name : SpelledName) (value : SpelledValue)
    (h : Opens isDelimiter rest) {source : List Char}
    (hsource : source = "let".toList ++ (gap.chars ++ (name.text ++ (value.text ++ rest)))) :
    letForm Expr.parse source =
      .ok (.assign source.length (.var name.name) value.expr.expr, rest) := by
  have hkeyword : keyword "let" source =
      .ok ((), gap.chars ++ (name.text ++ (value.text ++ rest))) := by
    rw [hsource]
    exact keyword_append "let" _
  have hgap := blanks1_append gap (name.opens_text_not_blank (value.text ++ rest))
  have hname := commit_of_ok
    (expect_of_ok (name.name_append (value.opens_text_not_name rest)) "variable-name")
  rw [letForm, bind_of_ok (here_eq_ok source), bind_of_ok hkeyword, bind_of_ok hgap,
    bind_of_ok hname, bind_of_ok (assigned_text value h)]
  rfl

theorem metaBoundary_blanks (gap : Blanks1) (h : Opens (!isSpaceOrTab ·) rest) :
    metaBoundary (gap.chars ++ rest) = .ok ((), rest) :=
  orElse_of_ok (bind_of_ok (blanks1_append gap h) _) _

/-- What follows a bare `meta` is an assignment, with blanks before its sign or without. -/
theorem metaBoundary_value (value : SpelledValue) (rest : List Char) :
    ∃ after, metaBoundary (value.text ++ rest) = .ok ((), after) := by
  rw [SpelledValue.text, List.append_assoc]
  by_cases hnil : value.beforeSign.chars = []
  · have hblanks : Misses blanks1 ('=' :: (value.afterSign.chars ++ value.expr.text) ++ rest) :=
      token_misses .blanks (by simp [isSpaceOrTab])
    rw [hnil]
    exact ⟨_, orElse_of_misses (hblanks.bind _) (keyword_append "=" _)⟩
  · exact ⟨_, metaBoundary_blanks ⟨value.beforeSign, hnil⟩ (by simp [isSpaceOrTab])⟩

theorem metaForm_key (gap : Blanks1) (key : SpelledName) (value : SpelledValue)
    (h : Opens isDelimiter rest) {source : List Char}
    (hsource : source = "meta".toList ++ (gap.chars ++ (key.text ++ (value.text ++ rest)))) :
    metaForm Expr.parse source =
      .ok (.assign source.length (.metadata (some key.name)) value.expr.expr, rest) := by
  have hkeyword : keyword "meta" source =
      .ok ((), gap.chars ++ (key.text ++ (value.text ++ rest))) := by
    rw [hsource]
    exact keyword_append "meta" _
  have hopens := key.opens_text_not_blank (value.text ++ rest)
  have hboundary := peek_of_ok (metaBoundary_blanks gap hopens)
  have hgap := blanks_append gap.toTextOf hopens
  have hkey := optional_of_ok (key.name_append (value.opens_text_not_name rest))
  rw [metaForm, bind_of_ok (here_eq_ok source), bind_of_ok hkeyword, bind_of_ok hboundary,
    bind_of_ok hgap, bind_of_ok hkey, bind_of_ok (assigned_text value h)]
  rfl

theorem metaForm_all (value : SpelledValue) (h : Opens isDelimiter rest) {source : List Char}
    (hsource : source = "meta".toList ++ (value.text ++ rest)) :
    metaForm Expr.parse source =
      .ok (.assign source.length (.metadata none) value.expr.expr, rest) := by
  have hkeyword : keyword "meta" source = .ok ((), value.text ++ rest) := by
    rw [hsource]
    exact keyword_append "meta" _
  obtain ⟨after, hafter⟩ := metaBoundary_value value rest
  have hboundary := peek_of_ok hafter
  -- The blanks before the sign are read here, and the assignment goes on without them.
  let unpadded : SpelledValue := ⟨⟨[], rfl⟩, value.afterSign, value.expr⟩
  have hblanks : blanks (value.text ++ rest) =
      .ok (value.beforeSign.chars, unpadded.text ++ rest) := by
    rw [SpelledValue.text, List.append_assoc]
    exact blanks_append value.beforeSign (by simp [isSpaceOrTab])
  have hname : optional name (unpadded.text ++ rest) = .ok (none, unpadded.text ++ rest) := by
    refine optional_of_misses (name_misses ?_)
    rw [SpelledValue.text, List.nil_append, List.cons_append, Opens.cons_iff]
    decide
  rw [metaForm, bind_of_ok (here_eq_ok source), bind_of_ok hkeyword, bind_of_ok hboundary,
    bind_of_ok hblanks, bind_of_ok hname, bind_of_ok (assigned_text unpadded h)]
  rfl

theorem targetSegments_ofKeys (segments : List String) :
    targetSegments (DotPath.ofKeys ("root" :: segments)) = segments := by
  have hkeys : DotPath.keys (DotPath.ofKeys ("root" :: segments)) = "root" :: segments :=
    DotPath.keys_ofKeys (by simp)
  simp only [targetSegments, hkeys]

theorem targetPath_quote (segments : List Segment) (rest : List Char) :
    targetPath (Spelling.quote (DotPath.ofKeys ("root" :: segments.map Segment.name)) ++ rest) =
      .ok (segments.map Segment.name, rest) := by
  have hkeys : ∀ key ∈ "root" :: segments.map Segment.name, key ≠ "" := by
    intro key hkey
    rcases List.mem_cons.mp hkey with rfl | hsegment
    · decide
    · obtain ⟨segment, -, rfl⟩ := List.mem_map.mp hsegment
      exact segment.nonempty
  have hname : name
      (Spelling.quote (DotPath.ofKeys ("root" :: segments.map Segment.name)) ++ rest) =
      .ok (DotPath.ofKeys ("root" :: segments.map Segment.name), rest) :=
    orElse_of_ok (Spelling.quoted_quote _ rest) _
  rw [targetPath, bind_of_ok (here_eq_ok _), bind_of_ok (expect_of_ok hname _),
    DotPath.firstEmptyPart_ofKeys (by simp) hkeys, targetSegments_ofKeys]
  rfl

theorem pathForm_of_ok {ε : Type} {query : Parser ε} {value : ε} {segments : List String}
    {source after : List Char} (htarget : targetPath source = .ok (segments, after))
    (hvalue : assigned query after = .ok (value, rest)) :
    pathForm query source = .ok (.assign source.length (.path segments) value, rest) := by
  rw [pathForm, bind_of_ok (here_eq_ok source), bind_of_ok htarget, bind_of_ok hvalue]
  rfl

theorem pathForm_text (segments : List Segment) (value : SpelledValue) (h : Opens isDelimiter rest)
    {source : List Char}
    (hsource : source = (SpelledTarget.path segments).text ++ (value.text ++ rest)) :
    pathForm Expr.parse source =
      .ok (.assign source.length (.path (segments.map Segment.name)) value.expr.expr, rest) := by
  have htarget : targetPath source = .ok (segments.map Segment.name, value.text ++ rest) := by
    rw [hsource]
    exact targetPath_quote segments (value.text ++ rest)
  exact pathForm_of_ok htarget (assigned_text value h)

theorem mapKeyword_misses {source : List Char} (h : after? "map".toList source = none) :
    Misses mapKeyword source :=
  (keyword_misses h).bind _

/-- Without its keyword a form is missed at the very start. -/
theorem mapForm_of_none {ε : Type} {item : Scoped (Item ε)} {registry : Registry}
    {source : List Char} (h : after? "map".toList source = none) :
    mapForm item registry source = .error ⟨false, source, .missingToken .keyword⟩ := by
  rw [mapForm, bind_of_ok (here_eq_ok source)]
  exact bind_of_error (bind_of_error (keyword_of_none h) _) _

theorem letForm_of_none {ε : Type} {query : Parser ε} {source : List Char}
    (h : after? "let".toList source = none) :
    letForm query source = .error ⟨false, source, .missingToken .keyword⟩ := by
  rw [letForm, bind_of_ok (here_eq_ok source)]
  exact bind_of_error (keyword_of_none h) _

theorem metaForm_of_none {ε : Type} {query : Parser ε} {source : List Char}
    (h : after? "meta".toList source = none) :
    metaForm query source = .error ⟨false, source, .missingToken .keyword⟩ := by
  rw [metaForm, bind_of_ok (here_eq_ok source)]
  exact bind_of_error (keyword_of_none h) _

theorem letForm_misses {ε : Type} {query : Parser ε} {source : List Char}
    (h : after? "let".toList source = none) : Misses (letForm query) source :=
  ⟨_, letForm_of_none h, rfl⟩

theorem metaForm_misses {ε : Type} {query : Parser ε} {source : List Char}
    (h : after? "meta".toList source = none) : Misses (metaForm query) source :=
  ⟨_, metaForm_of_none h, rfl⟩

theorem collide_of_not {taken : Prop} [Decidable taken] (h : ¬taken) (start : List Char)
    (name : String) (text : List Char) : collide start name taken text = .ok ((), text) := by
  rw [collide, if_neg h]
  rfl

theorem collide_of_taken {taken : Prop} [Decidable taken] (h : taken) (start : List Char)
    (name : String) (text : List Char) :
    collide start name taken text = .error ⟨true, start, .mapCollision name⟩ := by
  rw [collide, if_pos h]
  rfl

theorem collide_insists (start : List Char) (name : String) (taken : Prop) [Decidable taken] :
    Insists (collide start name taken) := by
  rw [collide]
  split
  · exact .abort start _
  · exact .pure ()

theorem collide_yields (start : List Char) (name : String) (taken : Prop) [Decidable taken] :
    Yields (collide start name taken) fun _ => ¬taken := by
  rw [collide]
  split
  · exact .abort start _
  · rename_i hnot
    exact .pure hnot

/-- After its keyword nothing in a map definition lets another form be tried. -/
theorem mapForm_misses_iff {ε : Type} {item : Scoped (Item ε)} {registry : Registry}
    {source : List Char} : Misses (mapForm item registry) source ↔ Misses mapKeyword source := by
  have hblanks : Insists blanks := by
    intro text failure h
    cases h
  rw [Misses, mapForm, bind_of_ok (here_eq_ok source)]
  refine misses_bind_iff fun _ => (Insists.commit _).bind fun name => ?_
  refine (collide_insists source name _).bind fun _ => hblanks.bind fun _ => ?_
  refine (Insists.commit _).bind fun block => ?_
  exact (collide_insists source name _).bind fun _ => .pure _

/-- An assignment is an item, and begins no map. -/
theorem itemUpTo_of_assignment {ε : Type} {query : Parser ε} {source : List Char} {item : Item ε}
    (hmap : Misses mapKeyword source) (h : assignment query source = .ok (item, rest)) (bound : Nat)
    (registry : Registry) :
    itemUpTo query (bound + 1) registry source = .ok ((item, registry), rest) :=
  orElse_of_misses (mapForm_misses_iff.mpr hmap) (bind_of_ok h _)

/-- An assignment is read by the form that its target asks for. -/
theorem assignment_text (target : SpelledTarget) (value : SpelledValue) (h : Opens isDelimiter rest)
    {source : List Char} (hsource : source = target.text ++ (value.text ++ rest)) :
    Misses mapKeyword source ∧ assignment Expr.parse source =
      .ok (.assign source.length target.target value.expr.expr, rest) := by
  cases target with
  | var gap name =>
      have htext : source = "let".toList ++ (gap.chars ++ (name.text ++ (value.text ++ rest))) := by
        simp [hsource, SpelledTarget.text]
      have hmap : after? "map".toList source = none := by simp [htext, after?]
      exact ⟨mapKeyword_misses hmap, orElse_of_ok (letForm_text gap name value h htext) _⟩
  | metadata gap key =>
      have htext : source = "meta".toList ++ (gap.chars ++ (key.text ++ (value.text ++ rest))) := by
        simp [hsource, SpelledTarget.text]
      have hmap : after? "map".toList source = none := by simp [htext, after?]
      have hlet : after? "let".toList source = none := by simp [htext, after?]
      have hmeta := metaForm_key gap key value h htext
      exact ⟨mapKeyword_misses hmap,
        orElse_of_misses (letForm_misses hlet) (orElse_of_ok hmeta _)⟩
  | allMetadata =>
      have hmap : after? "map".toList source = none := by
        simp [hsource, SpelledTarget.text, after?]
      have hlet : after? "let".toList source = none := by
        simp [hsource, SpelledTarget.text, after?]
      have hmeta := metaForm_all value h hsource
      exact ⟨mapKeyword_misses hmap,
        orElse_of_misses (letForm_misses hlet) (orElse_of_ok hmeta _)⟩
  | path segments =>
      have hmap : after? "map".toList source = none := by
        simp [hsource, SpelledTarget.text, Spelling.quote, after?]
      have hlet : after? "let".toList source = none := by
        simp [hsource, SpelledTarget.text, Spelling.quote, after?]
      have hmeta : after? "meta".toList source = none := by
        simp [hsource, SpelledTarget.text, Spelling.quote, after?]
      have hpath := pathForm_text segments value h hsource
      exact ⟨mapKeyword_misses hmap,
        orElse_of_misses (letForm_misses hlet) (orElse_of_misses (metaForm_misses hmeta) hpath)⟩

end Item

end Remap
