import Remap.Yaml.Scalar
import Remap.Yaml.Spacing

/-!
Plain scalars.  A plain scalar has no quotes, so it ends where something else begins: a colon after
which a word ends, a comment, a mark, a line that is not indented enough, or in braces one of their
signs.
-/

namespace Remap.Yaml

/-- The signs of the flow form. -/
def isFlowSign (c : Char) : Bool :=
  c ∈ [',', '[', ']', '{', '}']

/-- The characters with which no plain scalar begins, whatever follows. -/
def isIndicator (c : Char) : Bool :=
  isFlowSign c || c ∈ ['#', '&', '*', '!', '|', '>', '\'', '"', '%', '@', '\x60']

/-- Whether a plain scalar begins with a character, given what follows it.  A dash begins one if it
is not alone; a question mark and a colon do so in the block form only. -/
def startsPlain (style : Style) (c : Char) (rest : List Char) : Bool :=
  if c = '-' then !endsWord rest
  else if c = '?' || c = ':' then style = .block && !endsWord rest
  else !(isSpace c || isBreak c || isIndicator c)

/-- Whether a plain scalar ends before a character, given what follows it. -/
def endsPlain (style : Style) (c : Char) (rest : List Char) : Bool :=
  (c = ':' && endsWord rest) || (style = .flow && isFlowSign c)

/-- A colon in front of a sign of the flow form is neither text nor the end of a key. -/
def isStrayColon (style : Style) (c : Char) (rest : List Char) : Bool :=
  style = .flow && c = ':' && rest.head?.any fun next => isFlowSign next || next = '?'

/-- The text of a plain scalar from some place in it on, and the cursor after it.  On the lines
after its first the text stands at column `floor` or further right, and no tab stands left of that.
The spacing before the end is no part of the text. -/
def plainFrom (style : Style) (floor : Nat) (spacing : Spacing) (position : Position) :
    List Char → Option (List Char × Cursor)
  | [] => some ([], ⟨position, spacing.isBroken, []⟩)
  | c :: rest =>
      let next := position.after c
      let outside := spacing.isBroken && position.column < floor
      if isSpace c || isBreak c then
        if outside && c = '\t' then none
        else plainFrom style floor (spacing.push c) next rest
      else if outside || atMark position (c :: rest) || (c = '#' && spacing ≠ .empty) then
        some ([], ⟨position, spacing.isBroken, c :: rest⟩)
      else if isStrayColon style c rest then none
      else if endsPlain style c rest then some ([], ⟨position, spacing.isBroken, c :: rest⟩)
      else
        (plainFrom style floor .empty next rest).map fun (text, stop) =>
          (spacing.text ++ c :: text, stop)

/-- A plain scalar at the front of a text, which begins one. -/
def plain? (style : Style) (floor : Nat) (position : Position) (text : List Char) :
    Option (Scalar × Cursor) :=
  (plainFrom style floor .empty position text).map fun (text, stop) =>
    (.plain (String.ofList text), stop)

theorem plainFrom_rest_isSuffix {style : Style} {floor : Nat} {spacing : Spacing}
    {position : Position} {text found : List Char} {stop : Cursor}
    (h : plainFrom style floor spacing position text = some (found, stop)) :
    stop.rest <:+ text := by
  induction text generalizing spacing position found stop with
  | nil =>
      cases h
      exact List.suffix_refl _
  | cons c rest ih =>
      have hstep := List.suffix_cons c rest
      simp only [plainFrom] at h
      split at h
      · split at h
        · cases h
        · exact (ih h).trans hstep
      · split at h
        · cases h
          exact List.suffix_refl _
        · split at h
          · cases h
          · split at h
            · cases h
              exact List.suffix_refl _
            · obtain ⟨⟨_, _⟩, hrest, heq⟩ := Option.map_eq_some_iff.1 h
              cases heq
              exact (ih hrest).trans hstep

end Remap.Yaml
