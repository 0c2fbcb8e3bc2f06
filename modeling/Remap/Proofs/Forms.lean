import Remap.Proofs.EmptySegments
import Remap.Proofs.ReadOutlines

/-!
The forms of an item.  A text announces exactly one form by how it begins, and what is read from it
is of that form or its failure is final.  The only recoverable failure is that of a text with which
no target path begins, at its very start.
-/

namespace Remap

open Remap.Parser

variable {ε : Type}

namespace Parser

variable {α : Type} {p : Parser α} {P : α → Prop} {text : List Char}

/-- The parser takes a value with a property or fails for good. -/
def Decides (p : Parser α) (P : α → Prop) (text : List Char) : Prop :=
  (∃ value rest, p text = .ok (value, rest) ∧ P value) ∨
    ∃ failure, p text = .error failure ∧ failure.committed = true

namespace Decides

theorem of_not_misses (hyields : Yields p P) (h : ¬Misses p text) : Decides p P text := by
  cases hresult : p text with
  | ok result => exact .inl ⟨result.1, result.2, hresult, hyields _ _ _ hresult⟩
  | error failure =>
      refine .inr ⟨failure, hresult, ?_⟩
      cases hcommitted : failure.committed with
      | true => rfl
      | false => exact absurd ⟨failure, hresult, hcommitted⟩ h

theorem orElse (h : Decides p P text) (q : Parser α) : Decides (p <|> q) P text := by
  rcases h with ⟨value, rest, hok, hvalue⟩ | ⟨failure, herror, hcommitted⟩
  · exact .inl ⟨value, rest, orElse_of_ok hok q, hvalue⟩
  · exact .inr ⟨failure, orElse_of_committed herror hcommitted q, hcommitted⟩

theorem orElse_of_misses {q : Parser α} (hp : Misses p text) (h : Decides q P text) :
    Decides (p <|> q) P text := by
  rcases h with ⟨value, rest, hok, hvalue⟩ | ⟨failure, herror, hcommitted⟩
  · exact .inl ⟨value, rest, Parser.orElse_of_misses hp hok, hvalue⟩
  · exact .inr ⟨failure, orElse_of_misses_committed hp herror hcommitted, hcommitted⟩

end Decides

theorem quoted_misses_iff : Misses quoted text ↔ Opens (· ≠ '"') text := by
  refine ⟨?_, Spelling.quoted_misses⟩
  rintro ⟨failure, herror, hfree⟩ c hc
  cases text with
  | nil => cases hc
  | cons d text =>
      cases hc
      rw [decide_eq_true_eq]
      rintro rfl
      rw [quoted] at herror
      split at herror <;> cases herror <;> cases hfree

theorem name_misses_iff : Misses name text ↔ Opens (!SpelledName.isStart ·) text := by
  refine ⟨fun h => ?_, name_misses⟩
  obtain ⟨hquoted, hbare⟩ := misses_orElse_iff.mp h
  have hquote := quoted_misses_iff.mp hquoted
  have hchar := token_misses_iff.mp ((misses_bind_iff fun _ => .pure _).mp hbare)
  intro c hc
  have hne := hquote c hc
  have hnot := hchar c hc
  simp only [decide_eq_true_eq, Bool.not_eq_true'] at hne hnot
  simp [SpelledName.isStart, hne, hnot]

end Parser

/-- A text begins with two words only if one of them begins with the other. -/
theorem BeginsWord.comparable {first second : String} {inClass other : Char → Bool}
    {text : List Char} (h : BeginsWord first inClass text) (h' : BeginsWord second other text) :
    first.toList <+: second.toList ∨ second.toList <+: first.toList := by
  obtain ⟨c, rest, htext, -⟩ := h
  obtain ⟨d, left, htext', -⟩ := h'
  exact List.prefix_or_prefix_of_prefix ⟨c :: rest, htext.symm⟩ ⟨d :: left, htext'.symm⟩

/-- No segment of a path is empty. -/
def Target.NoEmptySegment : Target → Prop
  | .path segments => "" ∉ segments
  | _ => True

namespace Item

/-- The forms that an item can have. -/
inductive Form
  | map
  | var
  | metadata
  | path
deriving DecidableEq

def form : Item ε → Form
  | .map _ _ => .map
  | .assign _ (.var _) _ => .var
  | .assign _ (.metadata _) _ => .metadata
  | .assign _ (.path _) _ => .path

/-- How a text begins that has a form: with the keyword and a blank, for `meta` a blank or an equals
sign, and in no such way if it is to be a path. -/
def Form.Announced (text : List Char) : Form → Prop
  | .map => BeginsWord "map" isSpaceOrTab text
  | .var => BeginsWord "let" isSpaceOrTab text
  | .metadata => BeginsWord "meta" SpelledValue.isStart text
  | .path => ¬BeginsWord "map" isSpaceOrTab text ∧ ¬BeginsWord "let" isSpaceOrTab text ∧
      ¬BeginsWord "meta" SpelledValue.isStart text

theorem Form.exists_announced (text : List Char) : ∃ form : Form, form.Announced text := by
  by_cases hmap : BeginsWord "map" isSpaceOrTab text
  · exact ⟨.map, hmap⟩
  · by_cases hlet : BeginsWord "let" isSpaceOrTab text
    · exact ⟨.var, hlet⟩
    · by_cases hmeta : BeginsWord "meta" SpelledValue.isStart text
      · exact ⟨.metadata, hmeta⟩
      · exact ⟨.path, hmap, hlet, hmeta⟩

/-- No keyword begins with another one, so a text announces one form only. -/
theorem Form.Announced.unique {text : List Char} {form other : Form} (h : form.Announced text)
    (h' : other.Announced text) : form = other := by
  cases form <;> cases other <;>
    first
    | rfl
    | exact absurd (BeginsWord.comparable h h') (by decide)
    | exact absurd h h'.1
    | exact absurd h h'.2.1
    | exact absurd h h'.2.2
    | exact absurd h' h.1
    | exact absurd h' h.2.1
    | exact absurd h' h.2.2

theorem Form.Announced.not_announced {text : List Char} {form other : Form}
    (h : form.Announced text) (hne : other ≠ form) : ¬other.Announced text :=
  fun hother => hne (hother.unique h)

section

variable {query : Parser ε} {text : List Char}

/-- A text announces a path if none of the forms with a keyword begins there. -/
theorem announced_path_iff (query : Parser ε) :
    Form.path.Announced text ↔
      Misses mapKeyword text ∧ Misses (letForm query) text ∧ Misses (metaForm query) text := by
  rw [mapKeyword_misses_iff, letForm_misses_iff, metaForm_misses_iff]
  rfl

theorem letForm_yields (query : Parser ε) : Yields (letForm query) fun item =>
    ∃ remaining name value, item = .assign remaining (.var name) value := by
  rw [letForm]
  refine (Yields.always _).bind fun start _ => (Yields.always _).bind fun _ _ => ?_
  refine (Yields.always _).bind fun _ _ => (Yields.always _).bind fun name _ => ?_
  exact (Yields.always _).bind fun value _ => .pure ⟨start.length, name, value, rfl⟩

theorem metaForm_yields (query : Parser ε) : Yields (metaForm query) fun item =>
    ∃ remaining key value, item = .assign remaining (.metadata key) value := by
  rw [metaForm]
  refine (Yields.always _).bind fun start _ => (Yields.always _).bind fun _ _ => ?_
  refine (Yields.always _).bind fun _ _ => (Yields.always _).bind fun _ _ => ?_
  refine (Yields.always _).bind fun key _ => ?_
  exact (Yields.always _).bind fun value _ => .pure ⟨start.length, key, value, rfl⟩

theorem targetSegments_not_empty {path : String} (h : "" ∉ DotPath.keys path) :
    "" ∉ targetSegments path := by
  rw [targetSegments]
  split
  · rename_i rest hkeys
    rw [hkeys] at h
    exact fun hmem => h (List.mem_cons_of_mem _ hmem)
  · exact h

/-- No segment of a target path is empty. -/
theorem targetPath_yields : Yields targetPath fun segments => "" ∉ segments := by
  rw [targetPath]
  refine (Yields.always _).bind fun start _ => (Yields.always _).bind fun path _ => ?_
  split
  · rename_i hparts
    exact .pure (targetSegments_not_empty
      (DotPath.not_mem_keys (DotPath.not_mem_of_firstEmptyPart hparts)))
  · exact .abort _ _

theorem pathForm_yields (query : Parser ε) : Yields (pathForm query) fun item =>
    ∃ remaining segments value, item = .assign remaining (.path segments) value ∧
      "" ∉ segments := by
  rw [pathForm]
  refine (Yields.always _).bind fun start _ => targetPath_yields.bind fun segments hsegments => ?_
  exact (Yields.always _).bind fun value _ =>
    .pure ⟨start.length, segments, value, rfl, hsegments⟩

theorem pathForm_misses_iff :
    Misses (pathForm query) text ↔ Opens (!SpelledName.isStart ·) text := by
  have htarget : Misses targetPath text ↔ Misses name text := by
    rw [Misses, targetPath, bind_of_ok (here_eq_ok text)]
    refine (misses_bind_iff fun path => ?_).trans misses_expect_iff
    cases DotPath.firstEmptyPart path.toList with
    | none => exact .pure _
    | some offset => exact .abort _ _
  rw [Misses, pathForm, bind_of_ok (here_eq_ok text), ← name_misses_iff, ← htarget]
  exact misses_bind_iff fun segments => (assigned_insists query).bind fun _ => .pure _

theorem not_announced_of_opens (h : Opens (!SpelledName.isStart ·) text) :
    after? "map".toList text = none ∧ after? "let".toList text = none ∧
      after? "meta".toList text = none :=
  ⟨after?_of_not_start (by decide) _ h, after?_of_not_start (by decide) _ h,
    after?_of_not_start (by decide) _ h⟩

theorem pathForm_of_opens (h : Opens (!SpelledName.isStart ·) text) :
    pathForm query text = .error ⟨false, text, .expected "target-path"⟩ := by
  rw [pathForm, bind_of_ok (here_eq_ok text)]
  refine bind_of_error ?_ _
  rw [targetPath, bind_of_ok (here_eq_ok text)]
  exact bind_of_error (expect_of_missed (name_of_opens h) rfl rfl _) _

/-- Where no name begins no form begins, and a target path is what was expected. -/
theorem itemUpTo_of_opens (h : Opens (!SpelledName.isStart ·) text) (bound : Nat)
    (registry : Registry) :
    itemUpTo query bound registry text = .error ⟨false, text, .expected "target-path"⟩ := by
  cases bound with
  | zero => rfl
  | succ bound =>
      obtain ⟨hnoMap, hnoLet, hnoMeta⟩ := not_announced_of_opens h
      have hassign : assignment query text = .error ⟨false, text, .expected "target-path"⟩ :=
        orElse_of_missed (letForm_of_none hnoLet) rfl
          (orElse_of_missed (metaForm_of_none hnoMeta) rfl (pathForm_of_opens h) rfl rfl) rfl rfl
      exact orElse_of_missed (mapForm_of_none hnoMap) rfl (bind_of_error hassign _) rfl rfl

/-- A definition adds its name, which was new, and an assignment adds none. -/
def Registers (before after : Registry) : Item ε → Prop
  | .map name _ => ¬before.Knows name ∧ after.closed.head? = some name
  | .assign _ _ _ => after = before

/-- The item is of a form and has been registered. -/
def IsRegistered (form : Form) (before : Registry) (result : Item ε × Registry) : Prop :=
  result.1.form = form ∧ result.1.Registers before result.2

theorem mapForm_registers (item : Scoped (Item ε)) (registry : Registry) :
    Yields (mapForm item registry) (IsRegistered .map registry) := by
  rw [mapForm]
  refine (Yields.always _).bind fun start _ => (Yields.always _).bind fun _ _ => ?_
  refine (Yields.always _).bind fun name _ => ?_
  refine (collide_yields start name _).bind fun _ hname => ?_
  refine (Yields.always _).bind fun _ _ => (Yields.always _).bind fun read _ => ?_
  exact (Yields.always _).bind fun _ _ => .pure ⟨rfl, hname, rfl⟩

/-- An assignment of a form is read where no definition begins. -/
theorem itemUpTo_decides {form : Form} (hform : form ≠ .map) (hmap : Misses mapKeyword text)
    (h : Decides (assignment query) (fun item => item.form = form) text) (bound : Nat)
    (registry : Registry) :
    Decides (itemUpTo query (bound + 1) registry) (IsRegistered form registry) text := by
  refine .orElse_of_misses (mapForm_misses_iff.mpr hmap) ?_
  rcases h with ⟨item, rest, hok, rfl⟩ | ⟨failure, herror, hcommitted⟩
  · refine .inl ⟨(item, registry), rest, bind_of_ok hok _, rfl, ?_⟩
    cases item with
    | map name body => exact absurd rfl hform
    | assign remaining target query => rfl
  · exact .inr ⟨failure, bind_of_error herror _, hcommitted⟩

/-- A text that announces a form is read as that form, or its failure is final. -/
theorem Form.Announced.decides {form : Form} (h : form.Announced text)
    (hstart : form = .path → ¬Opens (!SpelledName.isStart ·) text) (bound : Nat)
    (registry : Registry) :
    Decides (itemUpTo query (bound + 1) registry) (IsRegistered form registry) text := by
  cases form with
  | map =>
      refine .orElse (.of_not_misses (mapForm_registers _ _) ?_) _
      rw [mapForm_misses_iff, mapKeyword_misses_iff, Classical.not_not]
      exact h
  | var =>
      have hmap := mapKeyword_misses_iff.mpr (h.not_announced (by decide : Form.map ≠ _))
      refine itemUpTo_decides (by decide : Form.var ≠ _) hmap ?_ bound registry
      refine .orElse (.of_not_misses ((letForm_yields query).mono ?_) ?_) _
      · rintro _ ⟨remaining, name, value, rfl⟩
        rfl
      · rw [letForm_misses_iff, Classical.not_not]
        exact h
  | metadata =>
      have hmap := mapKeyword_misses_iff.mpr (h.not_announced (by decide : Form.map ≠ _))
      have hlet : Misses (letForm query) text :=
        letForm_misses_iff.mpr (h.not_announced (by decide : Form.var ≠ _))
      refine itemUpTo_decides (by decide : Form.metadata ≠ _) hmap ?_ bound registry
      refine .orElse_of_misses hlet ?_
      refine .orElse (.of_not_misses ((metaForm_yields query).mono ?_) ?_) _
      · rintro _ ⟨remaining, key, value, rfl⟩
        rfl
      · rw [metaForm_misses_iff, Classical.not_not]
        exact h
  | path =>
      obtain ⟨hmap, hlet, hmeta⟩ := (announced_path_iff query).mp h
      refine itemUpTo_decides (by decide : Form.path ≠ _) hmap ?_ bound registry
      refine .orElse_of_misses hlet (.orElse_of_misses hmeta ?_)
      refine .of_not_misses ((pathForm_yields query).mono ?_) ?_
      · rintro _ ⟨remaining, segments, value, rfl, -⟩
        rfl
      · rw [pathForm_misses_iff]
        exact hstart rfl

/-- What the forms other than the map form take assigns to a target without an empty segment. -/
theorem assignment_assigns (query : Parser ε) : Yields (assignment query) fun item =>
    ∃ remaining target value, item = .assign remaining target value ∧ target.NoEmptySegment := by
  refine ((letForm_yields query).mono ?_).orElse (((metaForm_yields query).mono ?_).orElse
    ((pathForm_yields query).mono ?_))
  · rintro _ ⟨remaining, name, value, rfl⟩
    exact ⟨remaining, .var name, value, rfl, trivial⟩
  · rintro _ ⟨remaining, key, value, rfl⟩
    exact ⟨remaining, .metadata key, value, rfl, trivial⟩
  · rintro _ ⟨remaining, segments, value, rfl, hsegments⟩
    exact ⟨remaining, .path segments, value, rfl, hsegments⟩

theorem assignment_form (query : Parser ε) :
    Yields (assignment query) fun item => item.form ≠ .map := by
  refine (assignment_assigns query).mono ?_
  rintro _ ⟨remaining, target, value, rfl, -⟩
  cases target <;> exact nofun

end

end Item

end Remap
