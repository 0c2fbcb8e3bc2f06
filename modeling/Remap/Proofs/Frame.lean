import Remap.Proofs.Invariance

/-!
The frame of a run.  Until its commit a run writes to one place of the batch only, the metadata of
the part that is mapped, and there it only adds and replaces entries.  The commit of a successful
run then writes the content of that part, and it finds the part where it was.
-/

namespace Remap

variable {ε : Type}

theorem Dictionary.isSome_get?_insert {α : Type} {dictionary : Dictionary α} {other : String}
    (h : (dictionary.get? other).isSome = true) (key : String) (value : α) :
    ((dictionary.insert key value).get? other).isSome = true := by
  by_cases heq : other = key
  · rw [heq, Dictionary.get?_insert_self]
    rfl
  · rw [Dictionary.get?_insert_of_ne _ heq]
    exact h

theorem Places.isSome_get?_mergeMetadata {metadata : Metadata} {key : String}
    (h : (metadata.get? key).isSome = true) (fields : List (String × Value)) :
    ((mergeMetadata metadata fields).get? key).isSome = true := by
  induction fields generalizing metadata with
  | nil => exact h
  | cons field rest ih => exact ih (Dictionary.isSome_get?_insert h field.1 field.2.toText)

/-- Each target writes to its own place, and two of them can refuse a value. -/
theorem Target.assign_cases {target : Target} {value : Value} {before after : Places}
    (h : target.assign value before = .ok after) :
    (∃ name, target = .var name ∧ after = { before with vars := before.vars.insert name value }) ∨
    (∃ key, target = .metadata (some key) ∧
      after = { before with metadata := before.metadata.insert key value.toText }) ∨
    (∃ fields, target = .metadata none ∧ value = .object fields ∧
      after = { before with metadata := Places.mergeMetadata before.metadata fields }) ∨
    ∃ segments written, target = .path segments ∧
      (before.output.getD (.object [])).set segments value = .ok written ∧
      after = { before with output := some written } := by
  cases target with
  | var name =>
      cases h
      exact .inl ⟨name, rfl, rfl⟩
  | metadata key =>
      cases key with
      | some key =>
          cases h
          exact .inr (.inl ⟨key, rfl, rfl⟩)
      | none =>
          cases value with
          | object fields =>
              cases h
              exact .inr (.inr (.inl ⟨fields, rfl, rfl, rfl⟩))
          | null | bool _ | number _ | string _ | array _ => cases h
  | path segments =>
      rw [Target.assign] at h
      split at h
      · rename_i written hwritten
        cases h
        exact .inr (.inr (.inr ⟨segments, written, rfl, hwritten, rfl⟩))
      · cases h

/-- No assignment removes a metadata entry. -/
theorem Target.isSome_get?_of_assign {target : Target} {value : Value} {before after : Places}
    (h : target.assign value before = .ok after) {key : String}
    (hkey : (before.metadata.get? key).isSome = true) :
    (after.metadata.get? key).isSome = true := by
  rcases Target.assign_cases h with ⟨name, -, rfl⟩ | ⟨name, -, rfl⟩ | ⟨fields, -, -, rfl⟩ |
    ⟨segments, written, -, -, rfl⟩
  · exact hkey
  · exact Dictionary.isSome_get?_insert hkey name value.toText
  · exact Places.isSome_get?_mergeMetadata hkey fields
  · exact hkey

namespace Batch

theorem modify_of_get {batch : Batch} {index : Nat} {part : Part}
    (h : batch.get index = .ok part) (change : Part → Part) :
    batch.modify index change = .ok ⟨batch.parts.modify index change⟩ := by
  have hset : batch.parts.set index (change part) = batch.parts.modify index change := by
    apply List.ext_getElem?
    intro position
    rw [List.getElem?_modify, List.getElem?_set']
    by_cases hposition : index = position
    · subst hposition
      simp [get_eq_ok_iff.mp h]
    · simp [hposition]
  rw [Batch.modify, h, ← hset]
  rfl

/-- The part at an index has a metadata entry with this key. -/
def HasKey (batch : Batch) (index : Nat) (key : String) : Prop :=
  ∃ part, batch.parts[index]? = some part ∧ (part.metadata.get? key).isSome = true

/-- The parts are still there in their order, all but the one at `index` as they were, and that one
has all its metadata keys. -/
structure Kept (index : Nat) (before after : Batch) : Prop where
  size : after.size = before.size
  others (other : Nat) : other ≠ index → after.parts[other]? = before.parts[other]?
  keys (key : String) : before.HasKey index key → after.HasKey index key

/-- Moreover no content has changed. -/
structure Framed (index : Nat) (before after : Batch) : Prop extends Kept index before after where
  contents : after.parts.map Part.content = before.parts.map Part.content

theorem Kept.trans {index : Nat} {first second third : Batch} (h₁ : Kept index first second)
    (h₂ : Kept index second third) : Kept index first third where
  size := h₂.size.trans h₁.size
  others other hne := (h₂.others other hne).trans (h₁.others other hne)
  keys key hkey := h₂.keys key (h₁.keys key hkey)

/-- The batch after a successful run: the document that it built, if any, is the content of the
part. -/
def commit (batch : Batch) (index : Nat) : Option Value → Batch
  | none => batch
  | some document => ⟨batch.parts.modify index (·.withDocument document)⟩

theorem map_metadata_commit (batch : Batch) (index : Nat) (output : Option Value) :
    (batch.commit index output).parts.map Part.metadata = batch.parts.map Part.metadata := by
  cases output with
  | none => rfl
  | some document =>
      apply List.ext_getElem?
      intro position
      simp only [commit, List.getElem?_map, List.getElem?_modify]
      split <;> cases batch.parts[position]? <;> rfl

theorem commit_kept (batch : Batch) (index : Nat) (output : Option Value) :
    Kept index batch (batch.commit index output) where
  size := by cases output <;> simp [commit, size]
  others other hne := by
    cases output with
    | none => rfl
    | some document => rw [commit, List.getElem?_modify_ne _ _ (Ne.symm hne)]
  keys key hkey := by
    obtain ⟨part, hpart, hsome⟩ := hkey
    have hmetadata := congrArg (·[index]?) (map_metadata_commit batch index output)
    simp only [List.getElem?_map, hpart, Option.map_some, Option.map_eq_some_iff] at hmetadata
    obtain ⟨later, hlater, heq⟩ := hmetadata
    exact ⟨later, hlater, heq ▸ hsome⟩

namespace Framed

variable {index : Nat} {first second third : Batch}

theorem refl (index : Nat) (batch : Batch) : Framed index batch batch :=
  ⟨⟨rfl, fun _ _ => rfl, fun _ h => h⟩, rfl⟩

theorem trans (h₁ : Framed index first second) (h₂ : Framed index second third) :
    Framed index first third :=
  ⟨h₁.toKept.trans h₂.toKept, h₂.contents.trans h₁.contents⟩

theorem setMetadata {batch : Batch} {part : Part} {metadata : Metadata}
    (hpart : batch.get index = .ok part)
    (hkeys : ∀ key, (part.metadata.get? key).isSome = true →
      (metadata.get? key).isSome = true) :
    Framed index batch (batch.setMetadata index metadata) where
  size := by simp [Batch.setMetadata, size]
  others other hne := by
    rw [Batch.setMetadata, List.getElem?_modify_ne _ _ (Ne.symm hne)]
  contents := by
    apply List.ext_getElem?
    intro position
    simp only [Batch.setMetadata, List.getElem?_map, List.getElem?_modify]
    split <;> cases batch.parts[position]? <;> rfl
  keys key hkey := by
    obtain ⟨found, hfound, hsome⟩ := hkey
    rw [get_eq_ok_iff.mp hpart, Option.some.injEq] at hfound
    subst hfound
    refine ⟨{ part with metadata }, ?_, hkeys key hsome⟩
    rw [Batch.setMetadata, List.getElem?_modify_eq, get_eq_ok_iff.mp hpart]
    rfl

theorem content_eq (h : Framed index first second) {part : Part}
    (hpart : first.get index = .ok part) :
    (second.parts[index]?).map Part.content = some part.content := by
  have hcontents := congrArg (·[index]?) h.contents
  simpa [get_eq_ok_iff.mp hpart] using hcontents

/-- A part that was there before is still there. -/
theorem exists_get_eq_ok (h : Framed index first second) {part : Part}
    (hpart : first.get index = .ok part) : ∃ later, second.get index = .ok later := by
  obtain ⟨later, hlater, -⟩ := Option.map_eq_some_iff.mp (h.content_eq hpart)
  exact ⟨later, get_eq_ok_iff.mpr hlater⟩

end Framed

end Batch

/-- A run keeps to the frame at every step. -/
theorem framed_runClosed (index : Nat) :
    RunClosed index fun before after => Batch.Framed index before.batch after.batch where
  refl state := .refl index state.batch
  trans := .trans
  keep hpart hplaces := .setMetadata hpart fun _ => Target.isSome_get?_of_assign hplaces
  leave h := h

/-- The commit is no part of a run of statements, so its error is none of theirs. -/
theorem runFrom_ne_commit (eval : ε → State → Outcome QueryError Value) (index : Nat)
    (output : Option Value) (statements : List (Statement ε)) (state : State)
    (error : BatchError) :
    (runFrom eval index output statements state).1 ≠ .error (.commit error) := by
  induction statements generalizing output state with
  | nil => simp [runFrom]
  | cons statement rest ih =>
      rw [runFrom]
      split
      · simp
      · split
        · simp
        · split
          · simp
          · exact ih _ _

namespace Plan

variable [Language ε] {plan : Plan ε} {index : Nat} {batch : Batch} {part : Part} {state : State}

/-- How the statements of a plan evaluate their expressions when a part is mapped. -/
def evalPart (plan : Plan ε) (part : Part) (index : Nat) :
    ε → State → Outcome QueryError Value :=
  Language.eval ⟨part.document?, index⟩
    (applyMap plan.maps ⟨part.document?, index⟩ maxApplyDepth)

/-- Run the top-level statements as the mapping of a part does. -/
def execPart (plan : Plan ε) (part : Part) (index : Nat) (batch : Batch) :
    Outcome RunError (Option Value) :=
  plan.exec plan.maps ⟨part.document?, index⟩ (.start batch)

theorem execPart_framed [InertLanguage ε] (plan : Plan ε) (part : Part) (index : Nat)
    (batch : Batch) : Batch.Framed index batch (plan.execPart part index batch).2.batch :=
  (framed_runClosed (Input.mk part.document? index).index).run plan.maps plan.statements
    (.start batch)

theorem execPart_ne_commit (plan : Plan ε) (part : Part) (index : Nat) (batch : Batch)
    (error : BatchError) : (plan.execPart part index batch).1 ≠ .error (.commit error) :=
  runFrom_ne_commit _ index none plan.statements (.start batch) error

theorem mapPart_of_noPart {error : BatchError} (h : batch.get index = .error error) :
    plan.mapPart index batch = (.error (.batch error), batch) := by
  rw [mapPart, h]

theorem mapPart_of_error {error : RunError} (hpart : batch.get index = .ok part)
    (h : plan.execPart part index batch = (.error error, state)) :
    plan.mapPart index batch = (.error error, state.batch) := by
  rw [execPart] at h
  rw [mapPart, hpart]
  simp only [h]

/-- A run that succeeds commits: the commit finds its part, whatever the run did. -/
theorem mapPart_eq_commit [InertLanguage ε] {output : Option Value}
    (hpart : batch.get index = .ok part) (h : (plan.execPart part index batch).1 = .ok output) :
    plan.mapPart index batch =
      (.ok (), (plan.execPart part index batch).2.batch.commit index output) := by
  have hframed := plan.execPart_framed part index batch
  obtain ⟨later, hlater⟩ := hframed.exists_get_eq_ok hpart
  cases hrun : plan.execPart part index batch with
  | mk result state =>
      rw [hrun] at h hlater
      subst h
      rw [execPart] at hrun
      rw [mapPart, hpart]
      cases output with
      | none => simp only [hrun, Batch.commit]
      | some document => simp only [hrun, Batch.commit, Batch.write, Batch.modify_of_get hlater]

/-- What a mapping that succeeds has done. -/
theorem exists_commit_of_ok (h : (plan.mapPart index batch).1 = .ok ()) :
    ∃ part output after, batch.get index = .ok part ∧
      plan.execPart part index batch = (.ok output, after) ∧
      (plan.mapPart index batch).2 = after.batch.commit index output := by
  cases hpart : batch.get index with
  | error error =>
      rw [mapPart_of_noPart hpart] at h
      cases h
  | ok part =>
      obtain ⟨result, after, hrun⟩ : ∃ result after,
          plan.execPart part index batch = (result, after) := ⟨_, _, rfl⟩
      cases result with
      | error error =>
          rw [mapPart_of_error hpart hrun] at h
          cases h
      | ok output =>
          refine ⟨part, output, after, rfl, hrun, ?_⟩
          rw [execPart] at hrun
          rw [mapPart, hpart] at h ⊢
          simp only [hrun] at h ⊢
          cases output with
          | none => rfl
          | some document =>
              simp only [Batch.write] at h ⊢
              cases hlater : after.batch.get index with
              | error error => simp [Batch.modify, hlater, Except.map] at h
              | ok later => rw [Batch.modify_of_get hlater]; rfl

theorem mapPart_framed_of_error [InertLanguage ε] {error : RunError}
    (h : (plan.mapPart index batch).1 = .error error) :
    Batch.Framed index batch (plan.mapPart index batch).2 ∧ ∀ cause, error ≠ .commit cause := by
  cases hpart : batch.get index with
  | error cause =>
      rw [mapPart_of_noPart hpart] at h ⊢
      cases h
      exact ⟨.refl index batch, fun _ => by simp⟩
  | ok part =>
      have hframed := plan.execPart_framed part index batch
      cases hrun : plan.execPart part index batch with
      | mk result state =>
          rw [hrun] at hframed
          cases result with
          | ok output =>
              rw [mapPart_eq_commit hpart (congrArg Prod.fst hrun)] at h
              cases h
          | error found =>
              rw [mapPart_of_error hpart hrun] at h ⊢
              cases h
              refine ⟨hframed, fun cause heq => ?_⟩
              subst heq
              exact plan.execPart_ne_commit part index batch cause (congrArg Prod.fst hrun)

theorem mapPart_kept [InertLanguage ε] (plan : Plan ε) (index : Nat) (batch : Batch) :
    Batch.Kept index batch (plan.mapPart index batch).2 := by
  cases hresult : (plan.mapPart index batch).1 with
  | error error => exact (mapPart_framed_of_error hresult).1.toKept
  | ok done =>
      obtain ⟨part, output, after, -, hrun, hbatch⟩ := exists_commit_of_ok hresult
      have hframed := plan.execPart_framed part index batch
      rw [hrun] at hframed
      rw [hbatch]
      exact hframed.toKept.trans (Batch.commit_kept after.batch index output)

/-- Mapping a part keeps the number and the order of the parts, all other parts and the metadata
keys of its own.  A run that fails leaves every content as it was, and so does a run that succeeds
up to its commit, which cannot fail. -/
theorem mapPart_frame (plan : Plan Expr) (index : Nat) (batch : Batch) :
    (plan.mapPart index batch).2.size = batch.size ∧
    (∀ other, other ≠ index →
      (plan.mapPart index batch).2.parts[other]? = batch.parts[other]?) ∧
    (∀ key, batch.HasKey index key → (plan.mapPart index batch).2.HasKey index key) ∧
    (∀ error, (plan.mapPart index batch).1 = .error error →
      (plan.mapPart index batch).2.parts.map Part.content = batch.parts.map Part.content ∧
      ∀ cause, error ≠ .commit cause) ∧
    (∀ part, batch.get index = .ok part →
      (plan.execPart part index batch).2.batch.parts.map Part.content =
        batch.parts.map Part.content ∧
      ∀ output, (plan.execPart part index batch).1 = .ok output →
        plan.mapPart index batch =
          (.ok (), (plan.execPart part index batch).2.batch.commit index output)) := by
  have hkept := plan.mapPart_kept index batch
  refine ⟨hkept.size, hkept.others, hkept.keys, fun error herror => ?_, fun part hpart => ?_⟩
  · have hframed := mapPart_framed_of_error herror
    exact ⟨hframed.1.contents, hframed.2⟩
  · exact ⟨(plan.execPart_framed part index batch).contents,
      fun output hrun => mapPart_eq_commit hpart hrun⟩

/-- A map writes metadata and then fails inside another map. -/
def failingInside : Plan Expr where
  maps := .ofList [
    ("outer", [⟨2, .path ["a"], .array [.literal .null, .apply "inner"]⟩]),
    ("inner", [⟨5, .metadata (some "seen"), .content⟩, ⟨6, .path [], .throw "no"⟩])]
  statements := [⟨8, .path ["b"], .apply "outer"⟩]

theorem mapPart_frame_of_failingInside :
    (failingInside.mapPart 0 (.ofContents [[65], [66]])).1 =
      .error (.query 8 (.apply "outer" (.query 2 (.apply "inner" (.query 6 (.thrown "no")))))) ∧
    (failingInside.mapPart 0 (.ofContents [[65], [66]])).2.HasKey 0 "seen" ∧
    (failingInside.mapPart 0 (.ofContents [[65], [66]])).2.parts.map Part.content = [[65], [66]] ∧
    (failingInside.mapPart 0 (.ofContents [[65], [66]])).2.parts[1]? = some (.ofContent [66]) := by
  obtain ⟨-, hothers, -, herror, -⟩ := mapPart_frame failingInside 0 (.ofContents [[65], [66]])
  exact ⟨rfl, ⟨_, rfl, rfl⟩, (herror _ rfl).1, hothers 1 (by decide)⟩

end Plan

end Remap
