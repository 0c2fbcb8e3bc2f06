import Remap.Proofs.References
import Remap.Proofs.SeparateParts

/-!
Reads of the content.  A run reads the content of its part as a text and as the document in it, and
only where an expression says so.  Where none says so, nothing that the run does depends on the
content; and a document that is missing is noticed by the first expression that reads it.
-/

namespace Remap

/-- Reads neither the text of the content nor the document in it. -/
def Expr.IgnoresContent (expr : Expr) : Prop :=
  ∀ atom ∈ expr.atoms, atom ≠ .content ∧ ∀ path, atom ≠ .document path

/-- No statement at the top level or of a map that is reached by applying reads the content. -/
def Plan.IgnoresContent (plan : Plan Expr) : Prop :=
  ∀ statement,
    statement ∈ plan.statements ∨ ReachedFrom plan.maps (appliedIn plan.statements) statement →
      statement.query.IgnoresContent

namespace Batch

/-- Batches that differ in the content of one part at most. -/
structure SameButContent (index : Nat) (first second : Batch) : Prop where
  size : first.size = second.size
  others (other : Nat) : other ≠ index → first.parts[other]? = second.parts[other]?
  metadata : (first.parts[index]?).map Part.metadata = (second.parts[index]?).map Part.metadata

namespace SameButContent

variable {index : Nat} {first second : Batch}

/-- The part is in both batches, with the same metadata, or it is in neither. -/
theorem get_cases (h : SameButContent index first second) :
    (∃ cause, first.get index = .error cause ∧ second.get index = .error cause) ∨
      ∃ part part', first.get index = .ok part ∧ second.get index = .ok part' ∧
        part.metadata = part'.metadata := by
  have hmetadata := h.metadata
  rw [get, get, h.size]
  cases hfirst : first.parts[index]? with
  | none =>
      cases hsecond : second.parts[index]? with
      | none => exact .inl ⟨_, rfl, rfl⟩
      | some part' =>
          rw [hfirst, hsecond] at hmetadata
          cases hmetadata
  | some part =>
      cases hsecond : second.parts[index]? with
      | none =>
          rw [hfirst, hsecond] at hmetadata
          cases hmetadata
      | some part' =>
          rw [hfirst, hsecond] at hmetadata
          exact .inr ⟨part, part', rfl, rfl, Option.some.inj hmetadata⟩

theorem metadata_eq (h : SameButContent index first second) :
    first.parts.map Part.metadata = second.parts.map Part.metadata := by
  apply List.ext_getElem?
  intro position
  rw [List.getElem?_map, List.getElem?_map]
  by_cases hposition : position = index
  · rw [hposition, h.metadata]
  · rw [h.others position hposition]

theorem setMetadata (h : SameButContent index first second) (metadata : Metadata) :
    SameButContent index (first.setMetadata index metadata)
      (second.setMetadata index metadata) where
  size := by simpa [Batch.setMetadata, Batch.size] using h.size
  others other hne := by
    simp only [Batch.setMetadata, List.getElem?_modify_ne _ _ (Ne.symm hne), h.others other hne]
  metadata := by
    have hreplaced := congrArg (Option.map fun _ => metadata) h.metadata
    rw [Option.map_map, Option.map_map] at hreplaced
    simp only [Batch.setMetadata, List.getElem?_modify_eq, Option.map_eq_map, Option.map_map]
    exact hreplaced

/-- A document that is committed hides the contents that differ. -/
theorem commit_eq (h : SameButContent index first second) (document : Value) :
    first.commit index (some document) = second.commit index (some document) := by
  refine congrArg Batch.mk (List.ext_getElem? fun position => ?_)
  by_cases hposition : index = position
  · subst hposition
    have hcommitted := congrArg
      (Option.map fun metadata => Part.withDocument ⟨[], metadata⟩ document) h.metadata
    rw [Option.map_map, Option.map_map] at hcommitted
    rw [List.getElem?_modify_eq, List.getElem?_modify_eq]
    exact hcommitted
  · rw [List.getElem?_modify_ne _ _ hposition, List.getElem?_modify_ne _ _ hposition,
      h.others position (Ne.symm hposition)]

end SameButContent

end Batch

/-- States that hold the same variables, and batches that differ in the content of one part. -/
structure State.SameButContent (index : Nat) (first second : State) : Prop where
  vars : first.vars = second.vars
  batch : first.batch.SameButContent index second.batch

theorem State.sameButContent_paired (index : Nat) :
    Paired index (State.SameButContent index) where
  vars h := h.vars
  metadata h := by
    rcases h.batch.get_cases with ⟨cause, hfirst, hsecond⟩ | ⟨part, part', hfirst, hsecond, hsame⟩
    · rw [hfirst, hsecond]
    · rw [hfirst, hsecond]
      exact congrArg Except.ok hsame
  keep places h := ⟨rfl, h.batch.setMetadata places.metadata⟩
  enter h := ⟨h.vars, h.batch⟩
  leave h := ⟨h.vars, h.batch⟩

/-- What has no parts of its own and ignores the content reads variables and metadata. -/
theorem Expr.IsSimple.eval_sameButContent {atom : Expr} (h : atom.IsSimple)
    (hcontent : atom ≠ .content) (hdocument : ∀ path, atom ≠ .document path) {index : Nat}
    {first second : State} (hstates : first.SameButContent index second)
    (document₁ document₂ : Option Value) (apply₁ apply₂ : Apply) :
    (eval ⟨document₁, index⟩ apply₁ atom first).1 =
      (eval ⟨document₂, index⟩ apply₂ atom second).1 := by
  cases atom with
  | array items | object fields | apply map => exact h.elim
  | content => exact absurd rfl hcontent
  | document path => exact absurd rfl (hdocument path)
  | literal value | throw message => rfl
  | var name =>
      simp only [eval, hstates.vars]
      cases second.vars.get? name <;> rfl
  | metadata key =>
      simp only [eval]
      rcases hstates.batch.get_cases with ⟨cause, hfirst, hsecond⟩ |
        ⟨part, part', hfirst, hsecond, hsame⟩
      · rw [hfirst, hsecond]
      · rw [hfirst, hsecond]
        cases key <;> simp only [hsame]

/-- An atom that ignores the content and leads to nothing that reads it. -/
structure Expr.LeadsPast (maps : Dictionary (List (Statement Expr))) (atom : Expr) : Prop where
  content : atom ≠ .content
  document (path : List String) : atom ≠ .document path
  reached (name : String) : atom = .apply name →
    ∀ statement, ReachedFrom maps [name] statement → statement.query.IgnoresContent

/-- The atoms of an expression that ignores the content lead past it, if all that the expression
applies does. -/
theorem Expr.IgnoresContent.leadsPast {maps : Dictionary (List (Statement Expr))} {expr : Expr}
    (h : expr.IgnoresContent) {start : List String} (hstart : expr.applied ⊆ start)
    (hreached : ∀ statement, ReachedFrom maps start statement → statement.query.IgnoresContent) :
    ∀ atom ∈ expr.atoms, atom.LeadsPast maps := by
  intro atom hatom
  refine ⟨(h atom hatom).1, (h atom hatom).2, ?_⟩
  rintro name rfl statement hstatement
  refine hreached statement (hstatement.mono ?_)
  simpa using hstart (expr.apply_mem_atoms_iff.mp hatom)

/-- Runs whose states differ in the content only stay in step, whatever their documents are. -/
theorem State.sameButContent_lockstep (maps : Dictionary (List (Statement Expr))) (index : Nat)
    (document₁ document₂ : Option Value) :
    Lockstep index (State.SameButContent index) (fun _ => False) (Expr.LeadsPast maps) maps maps
      document₁ document₂ where
  toPaired := State.sameButContent_paired index
  reads apply₁ apply₂ hatom hsimple := by
    intro before after hstates
    rw [hsimple.eval_eq apply₁ apply₁ before, hsimple.eval_eq apply₂ apply₂ after]
    exact .inl ⟨hsimple.eval_sameButContent hatom.content hatom.document hstates _ _ _ _, hstates⟩
  maps _ := rfl
  bodies hatom hmap statement hstatement := by
    have hreached := hatom.reached _ rfl
    have hquery := hreached statement (.of_mem hmap hstatement)
    refine hquery.leadsPast (fun _ => mem_appliedIn hstatement) ?_
    exact fun inner hinner => hreached inner (.of_applied hmap hinner)

/-- Runs with and without a document stay in step until the one without has to read it. -/
theorem document_lockstep (maps : Dictionary (List (Statement Expr))) (index : Nat)
    (document : Value) :
    Lockstep index Eq (· = .noDocument) (fun _ => True) maps maps (some document) none where
  vars := congrArg State.vars
  metadata h := by rw [h]
  keep places h := congrArg (State.keep · index places) h
  enter := congrArg State.enter
  leave := congrArg State.leave
  reads {atom} apply₁ apply₂ _ hsimple := by
    rintro before _ rfl
    cases atom with
    | array items | object fields | apply map => exact hsimple.elim
    | document path => exact .inr ⟨.noDocument, rfl, rfl⟩
    | literal _ | var _ | metadata _ | content | throw _ => exact .inl ⟨rfl, rfl⟩
  maps _ := rfl
  bodies _ _ _ _ _ _ := trivial

namespace Plan

section

variable {plan : Plan Expr} {index : Nat} {first second : Batch}

/-- A plan that ignores the content runs on different contents in the same way. -/
theorem IgnoresContent.execPart_eq (h : plan.IgnoresContent)
    (hbatches : first.SameButContent index second) (part part' : Part) :
    (plan.execPart part index first).1 = (plan.execPart part' index second).1 ∧
      (plan.execPart part index first).2.SameButContent index
        (plan.execPart part' index second).2 := by
  have hatoms : ∀ statement ∈ plan.statements, ∀ atom ∈ statement.query.atoms,
      atom.LeadsPast plan.maps := by
    intro statement hstatement
    refine (h statement (.inl hstatement)).leadsPast (fun _ => mem_appliedIn hstatement) ?_
    exact fun inner hinner => h inner (.inr hinner)
  have hlockstep :=
    State.sameButContent_lockstep plan.maps index part.document? part'.document?
  have hagrees := hlockstep.run_agrees (Nat.le_refl maxApplyDepth)
    (fun hlt => absurd hlt (Nat.lt_irrefl _)) hatoms none (.start first) (.start second)
    ⟨rfl, hbatches⟩
  exact hagrees.unexcused fun _ _ => id

/-- A plan that ignores the content maps a part in the same way whatever its content is. -/
theorem IgnoresContent.mapPart_eq (h : plan.IgnoresContent)
    (hbatches : first.SameButContent index second) :
    (plan.mapPart index first).1 = (plan.mapPart index second).1 ∧
      (plan.mapPart index first).2.parts.map Part.metadata =
        (plan.mapPart index second).2.parts.map Part.metadata ∧
      ((plan.mapPart index first).2 = (plan.mapPart index second).2 ∨
        (plan.mapPart index first).2.parts.map Part.content = first.parts.map Part.content ∧
          (plan.mapPart index second).2.parts.map Part.content =
            second.parts.map Part.content) := by
  rcases hbatches.get_cases with ⟨cause, hfirst, hsecond⟩ | ⟨part, part', hfirst, hsecond, -⟩
  · rw [mapPart_of_noPart hfirst, mapPart_of_noPart hsecond]
    exact ⟨rfl, hbatches.metadata_eq, .inr ⟨rfl, rfl⟩⟩
  · obtain ⟨hresult, hstates⟩ := h.execPart_eq hbatches part part'
    have hkept := (plan.execPart_framed part index first).contents
    have hkept' := (plan.execPart_framed part' index second).contents
    cases hrun : (plan.execPart part' index second).1 with
    | error cause =>
        rw [mapPart_of_error hfirst (Prod.ext (hresult.trans hrun) rfl),
          mapPart_of_error hsecond (Prod.ext hrun rfl)]
        exact ⟨rfl, hstates.batch.metadata_eq, .inr ⟨hkept, hkept'⟩⟩
    | ok output =>
        rw [mapPart_eq_commit hfirst (hresult.trans hrun), mapPart_eq_commit hsecond hrun]
        cases output with
        | none => exact ⟨rfl, hstates.batch.metadata_eq, .inr ⟨hkept, hkept'⟩⟩
        | some document =>
            have hcommitted := hstates.batch.commit_eq document
            exact ⟨rfl, congrArg (fun batch => batch.parts.map Part.metadata) hcommitted,
              .inl hcommitted⟩

/-- A run without a document that does not fail for want of one is the run with any document. -/
theorem exec_of_noDocument (plan : Plan Expr) (maps : Dictionary (List (Statement Expr)))
    (state : State) (document : Value)
    (h : ∀ error, (plan.exec maps ⟨none, index⟩ state).1 = .error error →
      error.root ≠ .noDocument) :
    plan.exec maps ⟨none, index⟩ state = plan.exec maps ⟨some document, index⟩ state := by
  have hatoms : ∀ statement ∈ plan.statements, ∀ atom ∈ statement.query.atoms, True :=
    fun _ _ _ _ => trivial
  have hagrees := (document_lockstep maps index document).run_agrees (Nat.le_refl state.room)
    (fun hlt => absurd hlt (Nat.lt_irrefl _)) hatoms none state state rfl
  obtain ⟨hresult, hstate⟩ := hagrees.unexcused h
  exact (Prod.ext hresult hstate).symm

end

/-- What is not read does not count.  A plan none of whose statements reads the content of the part,
at the top level or in a map that is reached by applying, maps batches that differ in that content
with the same result and the same metadata; either it commits the same content in both or it leaves
all contents of both as they were.  And a run in a context without a document, of any plan with any
maps, that does not fail for want of a document has the result and leaves the state of the run with
any document in its place. -/
theorem run_of_unread :
    (∀ (plan : Plan Expr) (index : Nat) (first second : Batch), plan.IgnoresContent →
      first.SameButContent index second →
      (plan.mapPart index first).1 = (plan.mapPart index second).1 ∧
        (plan.mapPart index first).2.parts.map Part.metadata =
          (plan.mapPart index second).2.parts.map Part.metadata ∧
        ((plan.mapPart index first).2 = (plan.mapPart index second).2 ∨
          (plan.mapPart index first).2.parts.map Part.content = first.parts.map Part.content ∧
            (plan.mapPart index second).2.parts.map Part.content =
              second.parts.map Part.content)) ∧
    ∀ (plan : Plan Expr) (maps : Dictionary (List (Statement Expr))) (index : Nat) (state : State),
      (∀ error, (plan.exec maps ⟨none, index⟩ state).1 = .error error →
        error.root ≠ .noDocument) →
      ∀ document,
        plan.exec maps ⟨none, index⟩ state = plan.exec maps ⟨some document, index⟩ state :=
  ⟨fun _ _ _ _ hplan hbatches => hplan.mapPart_eq hbatches,
    fun plan maps _ state hroot document => plan.exec_of_noDocument maps state document hroot⟩

/-- The map that is applied reads the metadata, and the map beside it reads the content. -/
def readsMetadata : Plan Expr where
  maps := .ofList [("note", [⟨2, .metadata (some "seen"), .literal .null⟩,
      ⟨3, .path ["all"], .array [.metadata none, .var "v"]⟩]),
    ("other", [⟨6, .path ["a"], .content⟩, ⟨7, .path ["b"], .document []⟩])]
  statements := [⟨9, .var "v", .literal (.bool true)⟩, ⟨10, .path [], .apply "note"⟩]

theorem readsMetadata_map {body : List (Statement Expr)}
    (h : readsMetadata.maps.get? "note" = some body) :
    body = [⟨2, .metadata (some "seen"), .literal .null⟩,
      ⟨3, .path ["all"], .array [.metadata none, .var "v"]⟩] := by
  rw [readsMetadata, Dictionary.get?_ofList (by simp)] at h
  simpa using h

theorem readsMetadata_ignoresContent : readsMetadata.IgnoresContent := by
  rintro statement (hstatement | ⟨first, hfirst, map, body, hlinks, hbody, hstatement⟩)
  · simp only [readsMetadata, List.mem_cons, List.not_mem_nil, or_false] at hstatement
    rcases hstatement with rfl | rfl <;> simp [Expr.IgnoresContent, Expr.atoms]
  · have hnote : first = "note" := by
      simpa [readsMetadata, appliedIn, Expr.applied] using hfirst
    subst hnote
    rcases hlinks.cases_head with rfl | ⟨next, ⟨applying, happlying, hnext⟩, -⟩
    · rw [readsMetadata_map hbody] at hstatement
      simp only [List.mem_cons, List.not_mem_nil, or_false] at hstatement
      rcases hstatement with rfl | rfl <;>
        simp [Expr.IgnoresContent, Expr.atoms, Expr.atomsOfItems]
    · -- The map applies nothing.
      rw [readsMetadata_map happlying] at hnext
      simp [appliedIn, Expr.applied, Expr.appliedItems] at hnext

/-- Notes the content and fails before it comes to the document. -/
def failsBeforeDocument : Plan Expr where
  maps := .empty
  statements := [⟨1, .metadata (some "note"), .content⟩, ⟨2, .var "v", .throw "no"⟩,
    ⟨3, .path [], .document []⟩]

theorem run_of_unread_of_readsMetadata :
    readsMetadata.IgnoresContent ∧
    Batch.SameButContent 0 (.ofContents [[255], [66]]) (.ofContents [[49], [66]]) ∧
    (readsMetadata.mapPart 0 (.ofContents [[49], [66]])).1 = .ok () ∧
    ((readsMetadata.mapPart 0 (.ofContents [[49], [66]])).2.parts[0]?).map Part.content =
      some (Utf8.encode "\x7b\"all\":[\x7b\"seen\":\"null\"\x7d,true]\x7d".toList) ∧
    (failsBeforeDocument.exec .empty ⟨some (.bool true), 0⟩
      ⟨.empty, .ofContents [[65]], 0⟩).1 = .error (.query 2 (.thrown "no")) ∧
    (failsBeforeDocument.exec .empty ⟨some (.bool true), 0⟩
      ⟨.empty, .ofContents [[65]], 0⟩).2.batch =
        ⟨[⟨[65], Dictionary.empty.insert "note" "A"⟩]⟩ := by
  obtain ⟨hcontents, hdocuments⟩ := run_of_unread
  have hbatches : Batch.SameButContent 0 (.ofContents [[255], [66]]) (.ofContents [[49], [66]]) :=
    { size := rfl
      others := fun other hne => by
        obtain ⟨other, rfl⟩ := Nat.exists_eq_succ_of_ne_zero hne
        rfl
      metadata := rfl }
  obtain ⟨hresult, -, hbatch | ⟨hkept, -⟩⟩ :=
    hcontents readsMetadata 0 _ _ readsMetadata_ignoresContent hbatches
  · have hexec := hdocuments failsBeforeDocument .empty 0 ⟨.empty, .ofContents [[65]], 0⟩
      (by
        intro error herror
        cases herror
        nofun)
      (.bool true)
    exact ⟨readsMetadata_ignoresContent, hbatches, hresult.symm.trans rfl, by rw [← hbatch]; rfl,
      by rw [← hexec]; rfl, by rw [← hexec]; rfl⟩
  · exact absurd hkept (by decide)

end Plan

end Remap
