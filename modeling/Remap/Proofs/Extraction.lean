import Remap.Proofs.References
import Remap.Proofs.SeparateParts

/-!
Extraction.  The statements of a plan become a map, and the plan applies that map and nothing else.
Inside the map the statements do what they did at the top level, one level of maps deeper, so the
mapping of a part changes only in how an error is wrapped, unless the limit of applied maps is met.
-/

namespace Remap

theorem Expr.ne_apply_of_mem_atoms {expr atom : Expr} {name : String} (h : name ∉ expr.applied)
    (hatom : atom ∈ expr.atoms) : atom ≠ .apply name := by
  intro heq
  rw [heq, expr.apply_mem_atoms_iff] at hatom
  exact h hatom

/-- Batches that come from one and agree in the only part that was changed are the same. -/
theorem Batch.Kept.eq_of_get_eq {index : Nat} {before first second : Batch}
    (hfirst : Kept index before first) (hsecond : Kept index before second)
    (h : first.get index = second.get index) : first = second := by
  have hparts (position : Nat) : first.parts[position]? = second.parts[position]? := by
    by_cases hposition : position = index
    · rw [hposition]
      exact Batch.getElem?_eq_of_get_eq h
    · rw [hfirst.others position hposition, hsecond.others position hposition]
  exact congrArg Batch.mk (List.ext_getElem? hparts)

namespace Plan

/-- The plan whose only statement, at a given line, makes the document that of a new map, which has
the statements of the given plan. -/
def extract (plan : Plan Expr) (name : String) (line : Nat) : Plan Expr where
  maps := plan.maps.insert name plan.statements
  statements := [⟨line, .path [], .apply name⟩]

/-- No statement of the plan or of one of its maps applies a map of this name. -/
def NeverApplies (plan : Plan Expr) (name : String) : Prop :=
  name ∉ appliedIn plan.statements ∧
    ∀ map body, plan.maps.get? map = some body → name ∉ appliedIn body

/-- The statements of the plan as they are run inside the new map. -/
def execExtracted (plan : Plan Expr) (name : String) (part : Part) (index : Nat) (batch : Batch) :
    Outcome RunError (Option Value) :=
  runFrom
    (Expr.eval ⟨part.document?, index⟩
      (applyMap (plan.maps.insert name plan.statements) ⟨part.document?, index⟩
        (maxApplyDepth - 1)))
    index none plan.statements (State.start batch).enter

variable {plan : Plan Expr} {name : String} {part : Part} {index : Nat} {batch : Batch}

/-- One level deeper the statements do what they do at the top level, if no map fails because of its
depth. -/
theorem execExtracted_agrees (hname : plan.NeverApplies name) (part : Part) (index : Nat)
    (batch : Batch) :
    Outcome.Agrees (State.Alike index) (fun error => ∃ map, error.root = .recursionLimit map)
      (plan.execPart part index batch) (plan.execExtracted name part index batch) := by
  have hbodies : ∀ map body, Expr.apply map ≠ .apply name → plan.maps.get? map = some body →
      ∀ statement ∈ body, ∀ atom ∈ statement.query.atoms, atom ≠ .apply name := by
    intro map body _ hmap statement hstatement atom
    apply Expr.ne_apply_of_mem_atoms
    intro happlied
    exact hname.2 map body hmap (mem_appliedIn hstatement happlied)
  have hmaps : ∀ map, Expr.apply map ≠ .apply name →
      plan.maps.get? map = (plan.maps.insert name plan.statements).get? map := by
    intro map hne
    have hother : map ≠ name := fun heq => hne (congrArg Expr.apply heq)
    exact (Dictionary.get?_insert_of_ne plan.maps hother plan.statements).symm
  have hstatements : ∀ statement ∈ plan.statements, ∀ atom ∈ statement.query.atoms,
      atom ≠ .apply name := by
    intro statement hstatement atom
    apply Expr.ne_apply_of_mem_atoms
    intro happlied
    exact hname.1 (mem_appliedIn hstatement happlied)
  have hlockstep : Lockstep index (State.Alike index)
      (fun cause => ∃ map, cause = .recursionLimit map) (fun atom => atom ≠ .apply name) plan.maps
      (plan.maps.insert name plan.statements) part.document? part.document? :=
    State.alike_lockstep index _ _ hmaps hbodies
  exact hlockstep.run_agrees (Nat.sub_le maxApplyDepth 1) (fun _ map => ⟨map, rfl⟩) hstatements none
    (.start batch) (State.start batch).enter ⟨rfl, rfl⟩

/-- What the extracted statements do to a batch keeps to the frame of the part. -/
theorem execExtracted_framed (plan : Plan Expr) (name : String) (part : Part) (index : Nat)
    (batch : Batch) :
    Batch.Framed index batch (plan.execExtracted name part index batch).2.batch := by
  have closed := framed_runClosed (Input.mk part.document? index).index
  have heval := closed.evalQuery (plan.maps.insert name plan.statements) (maxApplyDepth - 1)
  exact closed.runFrom heval none plan.statements (State.start batch).enter

/-- The only statement evaluates to the document of the extracted statements, or to their error. -/
theorem evalPart_extract (plan : Plan Expr) (name : String) (line : Nat) (part : Part) (index : Nat)
    (batch : Batch) :
    (plan.extract name line).evalPart part index (.apply name) (.start batch) =
      (Expr.resultOf name (plan.execExtracted name part index batch).1,
        (plan.execExtracted name part index batch).2.leave) :=
  Expr.applyMap_succ (Dictionary.get?_insert_self plan.maps name plan.statements)
    (maxApplyDepth - 1) (.start batch)

theorem mapPart_extract_of_error {cause : RunError} (hpart : batch.get index = .ok part)
    (h : (plan.execExtracted name part index batch).1 = .error cause) (line : Nat) :
    (plan.extract name line).mapPart index batch =
      (.error (.query line (.apply name cause)),
        (plan.execExtracted name part index batch).2.batch) := by
  have hvalue := plan.evalPart_extract name line part index batch
  rw [h] at hvalue
  have hfails : Statement.Fails ((plan.extract name line).evalPart part index) index none
      ⟨line, .path [], .apply name⟩ (.start batch) _ _ := .query hvalue
  rw [mapPart_of_fails hpart rfl .nil hfails]
  rfl

/-- A document of the extracted statements is the document of the run.  Assigning it replaces the
metadata by itself. -/
theorem mapPart_extract_of_ok {document : Value} {later : Part} (hpart : batch.get index = .ok part)
    (h : (plan.execExtracted name part index batch).1 = .ok (some document))
    (hlater : (plan.execExtracted name part index batch).2.batch.get index = .ok later)
    (line : Nat) :
    (plan.extract name line).mapPart index batch =
      (.ok (), (plan.execExtracted name part index batch).2.batch.commit index (some document)) := by
  have hvalue := plan.evalPart_extract name line part index batch
  rw [h] at hvalue
  have hrun := execPart_of_onePath rfl hvalue hlater (Value.set_nil _ document)
  rw [mapPart_eq_commit hpart (congrArg Prod.fst hrun), hrun]
  rfl

/-- Making a map of the statements of a plan, under a name that none of its statements applies,
changes nothing but the error of a mapping: as long as the limit of applied maps is not met, both
plans succeed and leave the same batch, or both fail and leave the same batch, and then the error of
the plan with the map is the error of the given plan, at the line of the assignment that applies the
map. -/
theorem mapPart_extract (plan : Plan Expr) (name : String) (line : Nat) (batch : Batch)
    (index : Nat) (part : Part) (hpart : batch.get index = .ok part)
    (hpath : ∃ statement ∈ plan.statements, ∃ segments, statement.target = .path segments)
    (hname : plan.NeverApplies name)
    (hlimit : ∀ error map, ((plan.extract name line).mapPart index batch).1 = .error error →
      error.root ≠ .recursionLimit map) :
    ((plan.mapPart index batch).1 = .ok () ∧
        ((plan.extract name line).mapPart index batch).1 = .ok () ∧
        (plan.mapPart index batch).2 = ((plan.extract name line).mapPart index batch).2) ∨
      ∃ error, (plan.mapPart index batch).1 = .error error ∧
        ((plan.extract name line).mapPart index batch).1 =
          .error (.query line (.apply name error)) ∧
        (plan.mapPart index batch).2 = ((plan.extract name line).mapPart index batch).2 := by
  have hkept := plan.mapPart_kept index batch
  have hkept' := (plan.extract name line).mapPart_kept index batch
  obtain ⟨later, hlater⟩ :=
    (plan.execExtracted_framed name part index batch).exists_get_eq_ok hpart
  rcases plan.execExtracted_agrees hname part index batch with
    ⟨hresult, halike⟩ | ⟨cause, hcause, map, hroot⟩
  · cases hrun : (plan.execPart part index batch).1 with
    | error cause =>
        have hfirst := mapPart_of_error hpart (Prod.ext hrun rfl)
        have hsecond := mapPart_extract_of_error hpart (hresult.symm.trans hrun) line
        rw [hfirst] at hkept ⊢
        rw [hsecond] at hkept' ⊢
        exact .inr ⟨cause, rfl, rfl, hkept.eq_of_get_eq hkept' halike.part⟩
    | ok output =>
        -- A path is assigned, so there is a document.
        obtain ⟨values, hcompletes⟩ :=
          execPart_eq_ok_iff.mp (Prod.ext hrun rfl : plan.execPart part index batch = (_, _))
        obtain ⟨document, rfl⟩ := Option.isSome_iff_exists.mp (hcompletes.isSome_iff.mpr hpath)
        have hfirst := mapPart_eq_commit hpart hrun
        have hsecond := mapPart_extract_of_ok hpart (hresult.symm.trans hrun) hlater line
        rw [hfirst] at hkept ⊢
        rw [hsecond] at hkept' ⊢
        exact .inl ⟨rfl, rfl, hkept.eq_of_get_eq hkept' (Batch.get_commit halike.part _)⟩
  · have hsecond := mapPart_extract_of_error hpart hcause line
    have hother := hlimit (.query line (.apply name cause)) map (congrArg Prod.fst hsecond)
    exact absurd hroot hother

/-- Notes a variable and the document of a map that reads it, and then builds a document. -/
def notesAndBuilds (document : Expr) : Plan Expr where
  maps := .ofList [("inner", [⟨2, .path ["c"], .var "v"⟩])]
  statements := [⟨4, .var "v", .content⟩, ⟨5, .metadata (some "m"), .apply "inner"⟩,
    ⟨6, .path ["a"], document⟩]

theorem mapPart_extract_of_notesAndBuilds :
    (((notesAndBuilds (.metadata none)).extract "all" 9).mapPart 0 (.ofContents [[65]])).1 =
        .ok () ∧
      ((notesAndBuilds (.metadata none)).mapPart 0 (.ofContents [[65]])).2 =
        (((notesAndBuilds (.metadata none)).extract "all" 9).mapPart 0 (.ofContents [[65]])).2 ∧
      (((notesAndBuilds (.throw "no")).extract "all" 9).mapPart 0 (.ofContents [[65]])).1 =
        .error (.query 9 (.apply "all" (.query 6 (.thrown "no")))) ∧
      ((notesAndBuilds (.throw "no")).mapPart 0 (.ofContents [[65]])).2 =
        (((notesAndBuilds (.throw "no")).extract "all" 9).mapPart 0 (.ofContents [[65]])).2 := by
  have hbodies : ∀ map body, (notesAndBuilds .content).maps.get? map = some body →
      "all" ∉ appliedIn body := by
    intro map body hmap
    have hbody : body = [⟨2, .path ["c"], .var "v"⟩] := by
      have hentry := (Dictionary.get?_ofList (by decide) map body).mp hmap
      exact congrArg Prod.snd (List.mem_singleton.mp hentry)
    rw [hbody]
    decide
  have hbuilds : (notesAndBuilds (.metadata none)).NeverApplies "all" := ⟨by decide, hbodies⟩
  have hfails : (notesAndBuilds (.throw "no")).NeverApplies "all" := ⟨by decide, hbodies⟩
  have hpath (document : Expr) : ∃ statement ∈ (notesAndBuilds document).statements,
      ∃ segments, statement.target = .path segments :=
    ⟨⟨6, .path ["a"], document⟩, by simp [notesAndBuilds], ["a"], rfl⟩
  refine ⟨rfl, ?_, rfl, ?_⟩
  · rcases mapPart_extract _ "all" 9 (.ofContents [[65]]) 0 (.ofContent [65]) rfl (hpath _) hbuilds
      nofun with ⟨-, -, hbatches⟩ | ⟨error, -, -, hbatches⟩
    · exact hbatches
    · exact hbatches
  · have hroot : ∀ error map,
        (((notesAndBuilds (.throw "no")).extract "all" 9).mapPart 0 (.ofContents [[65]])).1 =
          .error error → error.root ≠ .recursionLimit map := by
      intro error map herror
      cases herror
      nofun
    rcases mapPart_extract _ "all" 9 (.ofContents [[65]]) 0 (.ofContent [65]) rfl (hpath _) hfails
      hroot with ⟨hok, -, -⟩ | ⟨error, -, -, hbatches⟩
    · cases hok
    · exact hbatches

end Plan

end Remap
