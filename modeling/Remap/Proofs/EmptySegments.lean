import Remap.Proofs.DotPaths
import Remap.Proofs.Taken

/-!
Empty segments of target paths.  A target is refused at its first empty segment, which in a bare
target is a place of the source; in quotes an escape takes more characters than it stands for, and
the opening quote has to do.
-/

namespace Remap

open Remap.Parser

namespace DotPath

/-- Between these two parts of a path text there is an empty segment: before it stand nothing or a
dot, and after it too. -/
structure EmptyBetween (before after : List Char) : Prop where
  opened : before = [] ∨ ∃ front, before = front ++ ['.']
  closed : after = [] ∨ ∃ back, after = '.' :: back

/-- It is the first empty segment of the path text. -/
structure FirstEmptyBetween (before after : List Char) : Prop extends EmptyBetween before after where
  first (earlier later : List Char) : before = earlier ++ later → later ≠ [] →
    ¬EmptyBetween earlier (later ++ after)

/-- A text is one part, or a part, a separator and a rest. -/
theorem exists_part (separator : Char) (text : List Char) :
    ∃ part, separator ∉ part ∧ (text = part ∨ ∃ rest, text = part ++ separator :: rest) := by
  induction text with
  | nil => exact ⟨[], List.not_mem_nil, .inl rfl⟩
  | cons c text ih =>
      by_cases hc : c = separator
      · exact ⟨[], List.not_mem_nil, .inr ⟨text, by rw [hc]; rfl⟩⟩
      · obtain ⟨part, hpart, htext⟩ := ih
        have hcons : separator ∉ c :: part := by
          simpa [Ne.symm hc] using hpart
        refine ⟨c :: part, hcons, htext.imp (congrArg (c :: ·)) ?_⟩
        rintro ⟨rest, rfl⟩
        exact ⟨rest, rfl⟩

/-- No empty segment lies before or in a part with characters, so the first one after its dot is the
first one of all. -/
theorem FirstEmptyBetween.afterPart {part before after : List Char} (hpart : '.' ∉ part)
    (hne : part ≠ []) (h : FirstEmptyBetween before after) :
    FirstEmptyBetween (part ++ '.' :: before) after where
  opened := by
    refine .inr ?_
    rcases h.opened with rfl | ⟨front, rfl⟩
    · exact ⟨part, rfl⟩
    · exact ⟨part ++ '.' :: front, by simp⟩
  closed := h.closed
  first earlier later htext hlater hempty := by
    rcases hempty.opened with rfl | ⟨front, rfl⟩
    · -- The path text begins with a character of the part.
      obtain ⟨c, part, rfl⟩ := List.exists_cons_of_ne_nil hne
      obtain rfl : c :: part ++ '.' :: before = later := htext
      rcases hempty.closed with hnil | ⟨back, hback⟩
      · cases hnil
      · have hdot : c = '.' := (List.cons.inj hback).1
        exact hpart (hdot ▸ List.mem_cons_self)
    · -- The dot before the empty segment is the one after the part or a later one.
      have hempty' (earlier : List Char) (hopened : earlier = [] ∨ ∃ front, earlier = front ++ ['.']) :
          EmptyBetween earlier (later ++ after) := ⟨hopened, hempty.closed⟩
      rw [List.append_assoc, List.singleton_append] at htext
      rcases List.append_eq_append_iff.mp htext with ⟨inner, -, hrest⟩ | ⟨inner, hfront, hrest⟩
      · cases inner with
        | nil =>
            obtain rfl : before = later := (List.cons.inj hrest).2
            exact h.first [] before rfl hlater (hempty' [] (.inl rfl))
        | cons d inner =>
            obtain ⟨-, rfl⟩ := List.cons.inj hrest
            refine h.first (inner ++ ['.']) later (by simp) hlater (hempty' _ (.inr ⟨inner, rfl⟩))
      · cases inner with
        | nil =>
            obtain rfl : later = before := (List.cons.inj hrest).2
            exact h.first [] later rfl hlater (hempty' [] (.inl rfl))
        | cons d inner =>
            obtain ⟨rfl, -⟩ := List.cons.inj hrest
            exact hpart (by simp [hfront])

/-- A path text that has no segment before its first dot, or none at all. -/
theorem firstEmptyBetween_nil {text : List Char} (h : text = [] ∨ ∃ back, text = '.' :: back) :
    FirstEmptyBetween [] text where
  opened := .inl rfl
  closed := h
  first earlier later hnil hlater := by
    rw [List.nil_eq_append_iff] at hnil
    exact absurd hnil.2 hlater

/-- The segments are looked through from an offset on. -/
theorem firstEmptyPart_go_split {text : List Char} {parts : List (List Char)}
    (hparts : split '.' text = parts) (h : [] ∈ parts) (offset : Nat) :
    ∃ before after, text = before ++ after ∧ FirstEmptyBetween before after ∧
      firstEmptyPart.go offset parts = some (offset + before.length) := by
  induction parts generalizing text offset with
  | nil => cases h
  | cons first parts ih =>
      obtain ⟨part, hpart, rfl | ⟨rest, rfl⟩⟩ := exists_part '.' text
      · rw [split_of_not_mem hpart] at hparts
        obtain ⟨rfl, rfl⟩ := List.cons.inj hparts
        obtain rfl := List.mem_singleton.mp h
        exact ⟨[], [], rfl, firstEmptyBetween_nil (.inl rfl), rfl⟩
      · rw [split_append_separator hpart] at hparts
        obtain ⟨rfl, hrest⟩ := List.cons.inj hparts
        by_cases hnil : part = []
        · subst hnil
          exact ⟨[], '.' :: rest, rfl, firstEmptyBetween_nil (.inr ⟨rest, rfl⟩), rfl⟩
        · have hmem : [] ∈ parts := (List.mem_cons.mp h).resolve_left (Ne.symm hnil)
          obtain ⟨before, after, rfl, hfirst, hgo⟩ := ih hrest hmem (offset + part.length + 1)
          refine ⟨part ++ '.' :: before, after, by simp, hfirst.afterPart hpart hnil, ?_⟩
          rw [firstEmptyPart.go, if_neg (by simpa using hnil), hgo, List.length_append,
            List.length_cons]
          congr 1
          omega

/-- The first empty segment is found where it is. -/
theorem firstEmptyPart_of_mem {text : List Char} (h : [] ∈ split '.' text) :
    ∃ before after, text = before ++ after ∧ FirstEmptyBetween before after ∧
      firstEmptyPart text = some before.length := by
  obtain ⟨before, after, htext, hfirst, hgo⟩ := firstEmptyPart_go_split rfl h 0
  rw [Nat.zero_add] at hgo
  exact ⟨before, after, htext, hfirst, hgo⟩

theorem firstEmptyPart_of_not_mem {text : List Char} (h : [] ∉ split '.' text) :
    firstEmptyPart text = none :=
  firstEmptyPart_go_eq_none (fun _ hpart hnil => h (hnil ▸ hpart)) 0

theorem not_mem_of_firstEmptyPart {text : List Char} (h : firstEmptyPart text = none) :
    [] ∉ split '.' text := by
  intro hmem
  obtain ⟨before, after, -, -, hsome⟩ := firstEmptyPart_of_mem hmem
  rw [h] at hsome
  cases hsome

/-- Segments with characters are keys with characters. -/
theorem not_mem_keys {path : String} (h : [] ∉ split '.' path.toList) : "" ∉ keys path := by
  intro hmem
  obtain ⟨part, hpart, hkey⟩ := List.mem_map.mp hmem
  have hne : part ≠ [] := fun hnil => h (hnil ▸ hpart)
  exact unescape_ne_nil hne (String.ofList_eq_empty_iff.mp hkey)

end DotPath

namespace WrittenName

/-- Where the source has the empty segment of a target that is followed by this text: at the opening
quote, or in a bare target at the segment itself. -/
def EmptySegmentAt (target : WrittenName) (rest place : List Char) : Prop :=
  match target with
  | .quoted _ => [] ∈ DotPath.split '.' target.name.toList ∧ place = target.text ++ rest
  | .bare text _ => ∃ before after, text.chars = before ++ after ∧
      DotPath.FirstEmptyBetween before after ∧ place = after ++ rest

end WrittenName

namespace Item

variable {target : WrittenName} {rest : List Char}

theorem targetPath_of_segments (hends : target.EndsBefore rest)
    (h : [] ∉ DotPath.split '.' target.name.toList) :
    targetPath (target.text ++ rest) = .ok (targetSegments target.name, rest) := by
  rw [targetPath, bind_of_ok (here_eq_ok _),
    bind_of_ok (expect_of_ok (target.name_append_of_ends hends) "target-path"),
    DotPath.firstEmptyPart_of_not_mem h]
  rfl

theorem targetPath_of_emptySegment (hends : target.EndsBefore rest)
    (h : [] ∈ DotPath.split '.' target.name.toList) :
    ∃ place, target.EmptySegmentAt rest place ∧
      targetPath (target.text ++ rest) =
        .error ⟨true, place, .emptyPathSegment target.name⟩ := by
  obtain ⟨before, after, htext, hfirst, hoffset⟩ := DotPath.firstEmptyPart_of_mem h
  rw [targetPath, bind_of_ok (here_eq_ok _),
    bind_of_ok (expect_of_ok (target.name_append_of_ends hends) "target-path"), hoffset]
  cases target with
  | quoted chars => exact ⟨_, ⟨h, rfl⟩, rfl⟩
  | bare text nonempty =>
      rw [WrittenName.name, String.toList_ofList] at htext
      refine ⟨after ++ rest, ⟨before, after, htext, hfirst, rfl⟩, ?_⟩
      have hquote : ((WrittenName.bare text nonempty).text ++ rest).head? ≠ some '"' := by
        obtain ⟨c, chars, hchars⟩ := List.exists_cons_of_ne_nil nonempty
        rw [WrittenName.text, hchars]
        rintro ⟨⟩
        exact absurd (text.of_mem (hchars ▸ List.mem_cons_self)) (by decide)
      have hdrop : ((WrittenName.bare text nonempty).text ++ rest).drop before.length =
          after ++ rest := by
        rw [WrittenName.text, htext, List.append_assoc, List.drop_left]
      simp only [if_neg hquote, hdrop]
      rfl

end Item

end Remap
