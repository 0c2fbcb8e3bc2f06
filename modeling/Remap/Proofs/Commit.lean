import Remap.Proofs.Frame

/-!
What a run commits.  Each top-level statement evaluates to a value, and the document of the run is
what the values of the path statements write, in their order, onto nothing.  There is one such
document for a list of statements: what an applied map builds is a value like any other.
-/

namespace Remap

variable {ε : Type}

/-- Metadata that is replaced by itself stays. -/
theorem Batch.setMetadata_self {batch : Batch} {index : Nat} {part : Part}
    (h : batch.get index = .ok part) : batch.setMetadata index part.metadata = batch := by
  rw [Batch.get_eq_ok_iff] at h
  have hparts : batch.parts.modify index ({ · with metadata := part.metadata }) = batch.parts := by
    apply List.ext_getElem?
    intro position
    by_cases hposition : index = position
    · rw [← hposition, List.getElem?_modify_eq, h]
      rfl
    · exact List.getElem?_modify_ne _ _ hposition
  exact congrArg Batch.mk hparts

/-- All statements succeed: in order, each evaluates to its value, which its target takes. -/
inductive Completes (eval : ε → State → Outcome QueryError Value) (index : Nat) :
    Option Value → State → List (Statement ε) → List Value → Option Value → State → Prop
  | nil {output : Option Value} {state : State} :
      Completes eval index output state [] [] output state
  | cons {output final : Option Value} {state evaluated after : State} {value : Value}
      {part : Part} {places : Places} {statement : Statement ε} {rest : List (Statement ε)}
      {values : List Value} :
      eval statement.query state = (.ok value, evaluated) →
      evaluated.batch.get index = .ok part →
      statement.target.assign value ⟨evaluated.vars, part.metadata, output⟩ = .ok places →
      Completes eval index places.output (evaluated.keep index places) rest values final after →
      Completes eval index output state (statement :: rest) (value :: values) final after

theorem runFrom_eq_ok_iff {eval : ε → State → Outcome QueryError Value} {index : Nat}
    {output final : Option Value} {statements : List (Statement ε)} {state after : State} :
    runFrom eval index output statements state = (.ok final, after) ↔
      ∃ values, Completes eval index output state statements values final after := by
  constructor
  · intro h
    induction statements generalizing output state with
    | nil =>
        cases h
        exact ⟨[], .nil⟩
    | cons statement rest ih =>
        rw [runFrom] at h
        split at h
        · cases h
        · rename_i value evaluated hvalue
          split at h
          · cases h
          · rename_i part hpart
            split at h
            · cases h
            · rename_i places hplaces
              obtain ⟨values, hrest⟩ := ih h
              exact ⟨value :: values, .cons hvalue hpart hplaces hrest⟩
  · rintro ⟨values, h⟩
    induction h with
    | nil => rfl
    | cons hvalue hpart hplaces _ ih =>
        rw [runFrom]
        simp only [hvalue, hpart, hplaces]
        exact ih

theorem Target.assign_path_eq_ok_iff {segments : List String} {value : Value}
    {before after : Places} :
    (Target.path segments).assign value before = .ok after ↔
      ∃ written, (before.output.getD (.object [])).set segments value = .ok written ∧
        after = { before with output := some written } := by
  rw [Target.assign]
  split
  · rename_i written hwritten
    simp [hwritten, eq_comm]
  · rename_i error herror
    simp [herror]

/-- Only a path target has to do with the output document. -/
theorem Target.assign_withOutput {target : Target} (h : ∀ segments, target ≠ .path segments)
    (value : Value) (places : Places) (output : Option Value) :
    target.assign value { places with output } =
      (target.assign value places).map ({ · with output }) := by
  cases target with
  | var name => rfl
  | metadata key =>
      cases key with
      | some key => rfl
      | none => cases value <;> rfl
  | path segments => exact absurd rfl (h segments)

theorem Target.output_of_assign {target : Target} (h : ∀ segments, target ≠ .path segments)
    {value : Value} {before after : Places} (hassign : target.assign value before = .ok after) :
    after.output = before.output := by
  have hsame := Target.assign_withOutput h value before before.output
  rw [hassign] at hsame
  have hafter : after = { after with output := before.output } := Except.ok.inj hsame
  have houtput := congrArg Places.output hafter
  exact houtput

/-- What path statements write, given the values of all statements. -/
def pathWrites : List (Statement ε) → List Value → List (List String × Value)
  | statement :: rest, value :: values =>
      match statement.target with
      | .path segments => (segments, value) :: pathWrites rest values
      | .var _ | .metadata _ => pathWrites rest values
  | _, _ => []

/-- Write values at paths, one after the other, onto a document that may be missing; the first write
into a missing document finds an empty object. -/
def writeAll : Option Value → List (List String × Value) → Except PathError (Option Value)
  | document, [] => .ok document
  | document, (segments, value) :: rest =>
      match (document.getD (.object [])).set segments value with
      | .ok written => writeAll (some written) rest
      | .error error => .error error

/-- A write of the whole document hides the writes before it. -/
theorem writeAll_of_whole {document final : Option Value}
    {earlier later : List (List String × Value)} {value : Value}
    (h : writeAll document (earlier ++ ([], value) :: later) = .ok final) :
    writeAll (some value) later = .ok final := by
  induction earlier generalizing document with
  | nil => simpa [writeAll] using h
  | cons write rest ih =>
      rw [List.cons_append, writeAll] at h
      split at h
      · exact ih h
      · cases h

theorem isSome_of_writeAll {document final : Option Value} {writes : List (List String × Value)}
    (h : writeAll document writes = .ok final) :
    final.isSome = (document.isSome || !writes.isEmpty) := by
  induction writes generalizing document with
  | nil =>
      cases h
      simp
  | cons write rest ih =>
      rw [writeAll] at h
      split at h
      · simp [ih h]
      · cases h

namespace Completes

variable {eval : ε → State → Outcome QueryError Value} {index : Nat} {output final : Option Value}
  {state after : State} {statements : List (Statement ε)} {values : List Value}

theorem writeAll_pathWrites (h : Completes eval index output state statements values final after) :
    writeAll output (pathWrites statements values) = .ok final := by
  induction h with
  | nil => rfl
  | @cons output _ _ _ _ value _ places statement rest values _ _ hplaces _ ih =>
      rw [pathWrites]
      cases htarget : statement.target with
      | path segments =>
          rw [htarget, Target.assign_path_eq_ok_iff] at hplaces
          obtain ⟨written, hwritten, rfl⟩ := hplaces
          simp only [writeAll, hwritten]
          exact ih
      | var _ | metadata _ =>
          rw [Target.output_of_assign (by simp [htarget]) hplaces] at ih
          exact ih

theorem pathWrites_ne_nil_iff
    (h : Completes eval index output state statements values final after) :
    pathWrites statements values ≠ [] ↔
      ∃ statement ∈ statements, ∃ segments, statement.target = .path segments := by
  induction h with
  | nil => simp [pathWrites]
  | @cons _ _ _ _ _ _ _ _ statement rest values _ _ _ _ ih =>
      rw [pathWrites]
      cases htarget : statement.target with
      | path segments => simp [htarget]
      | var _ | metadata _ => simp [htarget, ih]

/-- A document comes out exactly if some path was written, or one was there before. -/
theorem isSome_iff (h : Completes eval index none state statements values final after) :
    final.isSome = true ↔
      ∃ statement ∈ statements, ∃ segments, statement.target = .path segments := by
  rw [isSome_of_writeAll h.writeAll_pathWrites, ← h.pathWrites_ne_nil_iff]
  simp

end Completes

namespace Plan

variable [Language ε]

/-- Every top-level statement succeeds when the part is mapped, and these are their values. -/
def Succeeds (plan : Plan ε) (part : Part) (index : Nat) (batch : Batch) (values : List Value) :
    Prop :=
  ∃ final after,
    Completes (plan.evalPart part index) index none (.start batch) plan.statements values final
      after

/-- The run of the plan ends with this document, which then is the content of the part. -/
def Commits (plan : Plan ε) (part : Part) (index : Nat) (batch : Batch) (document : Value) : Prop :=
  (plan.execPart part index batch).1 = .ok (some document) ∧
    plan.mapPart index batch =
      (.ok (), (plan.execPart part index batch).2.batch.commit index (some document))

variable {plan : Plan ε} {part : Part} {index : Nat} {batch : Batch}

theorem execPart_eq_ok_iff {final : Option Value} {after : State} :
    plan.execPart part index batch = (.ok final, after) ↔
      ∃ values, Completes (plan.evalPart part index) index none (.start batch) plan.statements
        values final after :=
  runFrom_eq_ok_iff

/-- A plan of one path statement writes its value into an empty document. -/
theorem execPart_of_onePath {line : Nat} {segments : List String} {query : ε}
    {value document : Value} {after : State} {later : Part}
    (hplan : plan.statements = [⟨line, .path segments, query⟩])
    (hvalue : plan.evalPart part index query (.start batch) = (.ok value, after))
    (hlater : after.batch.get index = .ok later)
    (hwritten : (Value.object []).set segments value = .ok document) :
    plan.execPart part index batch = (.ok (some document), after) := by
  have hkeep : after.keep index ⟨after.vars, later.metadata, some document⟩ = after := by
    rw [State.keep, Batch.setMetadata_self hlater]
  have hplaces : (Target.path segments).assign value ⟨after.vars, later.metadata, none⟩ =
      .ok ⟨after.vars, later.metadata, some document⟩ :=
    Target.assign_path_eq_ok_iff.mpr ⟨document, hwritten, rfl⟩
  rw [execPart_eq_ok_iff, hplan]
  exact ⟨[value], .cons hvalue hlater hplaces (hkeep.symm ▸ .nil)⟩

theorem commits_iff [InertLanguage ε] (hpart : batch.get index = .ok part) {document : Value} :
    plan.Commits part index batch document ↔
      (plan.execPart part index batch).1 = .ok (some document) :=
  ⟨And.left, fun h => ⟨h, mapPart_eq_commit hpart h⟩⟩

theorem content_of_commits [InertLanguage ε] (hpart : batch.get index = .ok part)
    {document : Value} (h : plan.Commits part index batch document) :
    ((plan.mapPart index batch).2.parts[index]?).map Part.content =
      some (Utf8.encode (Json.print document)) := by
  have hframed := plan.execPart_framed part index batch
  obtain ⟨later, hlater⟩ := hframed.exists_get_eq_ok hpart
  rw [h.2, Batch.commit, List.getElem?_modify_eq, Batch.get_eq_ok_iff.mp hlater]
  rfl

theorem exists_commits_iff [InertLanguage ε] (hpart : batch.get index = .ok part) :
    (∃ document, plan.Commits part index batch document) ↔
      (∃ values, plan.Succeeds part index batch values) ∧
        ∃ statement ∈ plan.statements, ∃ segments, statement.target = .path segments := by
  constructor
  · rintro ⟨document, hcommits⟩
    have hrun : plan.execPart part index batch =
        (.ok (some document), (plan.execPart part index batch).2) := Prod.ext hcommits.1 rfl
    obtain ⟨values, hcompletes⟩ := execPart_eq_ok_iff.mp hrun
    exact ⟨⟨values, _, _, hcompletes⟩, hcompletes.isSome_iff.mp rfl⟩
  · rintro ⟨⟨values, final, after, hcompletes⟩, hpath⟩
    obtain ⟨document, rfl⟩ := Option.isSome_iff_exists.mp (hcompletes.isSome_iff.mpr hpath)
    have hrun := execPart_eq_ok_iff.mpr ⟨values, hcompletes⟩
    exact ⟨document, (commits_iff hpart).mpr (congrArg Prod.fst hrun)⟩

theorem content_of_not_commits [InertLanguage ε] (hpart : batch.get index = .ok part)
    (h : ¬ ∃ document, plan.Commits part index batch document) :
    ((plan.mapPart index batch).2.parts[index]?).map Part.content = some part.content := by
  have hframed := plan.execPart_framed part index batch
  cases hrun : (plan.execPart part index batch).1 with
  | error error =>
      rw [mapPart_of_error hpart (Prod.ext hrun rfl)]
      exact hframed.content_eq hpart
  | ok output =>
      cases output with
      | none =>
          rw [mapPart_eq_commit hpart hrun]
          exact hframed.content_eq hpart
      | some document => exact absurd ⟨document, (commits_iff hpart).mpr hrun⟩ h

/-- The content of a part is replaced exactly if all top-level statements succeed and one of them
assigns a path.  The document that replaces it is what the path statements write onto nothing, a
write of the whole document hiding those before it.  Otherwise the content stays as it was. -/
theorem mapPart_commits_writes [InertLanguage ε] (plan : Plan ε) (index : Nat) (batch : Batch)
    (part : Part) (hpart : batch.get index = .ok part) :
    ((∃ document, plan.Commits part index batch document) ↔
      (∃ values, plan.Succeeds part index batch values) ∧
        ∃ statement ∈ plan.statements, ∃ segments, statement.target = .path segments) ∧
    (∀ document, plan.Commits part index batch document →
      ((plan.mapPart index batch).2.parts[index]?).map Part.content =
        some (Utf8.encode (Json.print document)) ∧
      ∃ values, plan.Succeeds part index batch values ∧
        writeAll none (pathWrites plan.statements values) = .ok (some document) ∧
        ∀ earlier value later,
          pathWrites plan.statements values = earlier ++ ([], value) :: later →
            writeAll (some value) later = .ok (some document)) ∧
    ((¬ ∃ document, plan.Commits part index batch document) →
      ((plan.mapPart index batch).2.parts[index]?).map Part.content = some part.content) := by
  refine ⟨exists_commits_iff hpart, fun document hcommits => ?_, content_of_not_commits hpart⟩
  have hrun : plan.execPart part index batch =
      (.ok (some document), (plan.execPart part index batch).2) := Prod.ext hcommits.1 rfl
  obtain ⟨values, hcompletes⟩ := execPart_eq_ok_iff.mp hrun
  have hwrites := hcompletes.writeAll_pathWrites
  refine ⟨content_of_commits hpart hcommits, values, ⟨_, _, hcompletes⟩, hwrites, ?_⟩
  intro earlier value later hsplit
  rw [hsplit] at hwrites
  exact writeAll_of_whole hwrites

/-- A map that assigns a path, applied under one path after another one and the whole document have
been written. -/
def nestedWrites : Plan Expr where
  maps := .ofList [("inner", [⟨2, .path ["c"], .content⟩])]
  statements := [⟨4, .path ["a"], .literal .null⟩, ⟨5, .path [], .object []⟩,
    ⟨6, .path ["b"], .apply "inner"⟩]

theorem mapPart_commits_writes_of_nestedWrites :
    Batch.get (.ofContents [[65]]) 0 = .ok (.ofContent [65]) ∧
    ((nestedWrites.mapPart 0 (.ofContents [[65]])).2.parts[0]?).map Part.content =
      some (Utf8.encode "\x7b\"b\":\x7b\"c\":\"A\"\x7d\x7d".toList) ∧
    ∃ values, nestedWrites.Succeeds (.ofContent [65]) 0 (.ofContents [[65]]) values := by
  obtain ⟨-, hcommits, -⟩ :=
    mapPart_commits_writes nestedWrites 0 (.ofContents [[65]]) (.ofContent [65]) rfl
  obtain ⟨hcontent, values, hvalues, -⟩ :=
    hcommits (.object [("b", .object [("c", .string "A")])]) ⟨rfl, rfl⟩
  exact ⟨rfl, hcontent, values, hvalues⟩

end Plan

end Remap
