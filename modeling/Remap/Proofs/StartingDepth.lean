import Remap.Proofs.SeparateParts

/-!
The depth at which evaluation starts.  Nothing reads the depth of a state but the limit of applied
maps, so what is evaluated at one depth is evaluated in the same way at a smaller one.  A failure at
the limit is passed on by everything around it, so an evaluation that does not fail there has not
met the limit anywhere.
-/

namespace Remap

/-- States that hold the same variables and the same batch, at any depths. -/
structure State.SameButDepth (first second : State) : Prop where
  vars : first.vars = second.vars
  batch : first.batch = second.batch

theorem State.sameButDepth_paired (index : Nat) : Paired index State.SameButDepth where
  vars h := h.vars
  metadata h := by rw [h.batch]
  keep places h := ⟨rfl, by simp only [State.keep, h.batch]⟩
  enter h := ⟨h.vars, h.batch⟩
  leave h := ⟨h.vars, h.batch⟩

/-- Runs at different depths stay in step on all expressions, the limit of the second excused. -/
theorem State.sameButDepth_lockstep (maps : Dictionary (List (Statement Expr))) (input : Input) :
    Lockstep input.index State.SameButDepth (fun cause => ∃ map, cause = .recursionLimit map)
      (fun _ => True) maps maps input.document input.document :=
  (State.sameButDepth_paired input.index).lockstep
    (fun h => ⟨h.vars, congrArg (Batch.get · input.index) h.batch⟩) _ _ (fun _ _ => rfl)
    fun _ _ _ _ _ _ _ _ => trivial

/-- What does not fail at the limit of applied maps has the same result when it starts at a smaller
depth, and leaves the same variables and the same batch. -/
theorem evaluation_of_deeper (maps : Dictionary (List (Statement Expr))) (input : Input)
    (vars : Vars) (batch : Batch) {depth deeper : Nat} (hle : depth ≤ deeper) :
    (∀ expr : Expr,
      (∀ error map, (evaluate maps input expr ⟨vars, batch, deeper⟩).1 = .error error →
        error.root ≠ .recursionLimit map) →
      (evaluate maps input expr ⟨vars, batch, depth⟩).1 =
          (evaluate maps input expr ⟨vars, batch, deeper⟩).1 ∧
        (evaluate maps input expr ⟨vars, batch, depth⟩).2.SameButDepth
          (evaluate maps input expr ⟨vars, batch, deeper⟩).2) ∧
    (∀ statements : List (Statement Expr),
      (∀ error map, (run maps input statements ⟨vars, batch, deeper⟩).1 = .error error →
        error.root ≠ .recursionLimit map) →
      (run maps input statements ⟨vars, batch, depth⟩).1 =
          (run maps input statements ⟨vars, batch, deeper⟩).1 ∧
        (run maps input statements ⟨vars, batch, depth⟩).2.SameButDepth
          (run maps input statements ⟨vars, batch, deeper⟩).2) := by
  have hlockstep := State.sameButDepth_lockstep maps input
  have hroom : State.room ⟨vars, batch, deeper⟩ ≤ State.room ⟨vars, batch, depth⟩ :=
    Nat.sub_le_sub_left hle maxApplyDepth
  have hstates : State.SameButDepth ⟨vars, batch, depth⟩ ⟨vars, batch, deeper⟩ := ⟨rfl, rfl⟩
  constructor
  · intro expr hlimit
    have hatoms : ∀ atom ∈ expr.atoms, True := fun _ _ => trivial
    have hagrees := hlockstep.eval_inStep hroom (fun _ map => ⟨map, rfl⟩) hatoms _ _ hstates
    refine hagrees.unexcused ?_
    rintro cause hcause ⟨map, hroot⟩
    exact hlimit cause map hcause hroot
  · intro statements hlimit
    have hatoms : ∀ statement ∈ statements, ∀ atom ∈ statement.query.atoms, True :=
      fun _ _ _ _ => trivial
    have hagrees :=
      hlockstep.run_agrees hroom (fun _ map => ⟨map, rfl⟩) hatoms none _ _ hstates
    refine hagrees.unexcused ?_
    rintro cause hcause ⟨map, hroot⟩
    exact hlimit cause map hcause hroot

/-- One map notes the content and applies another one inside an array.  That one sets a variable and
builds a document of it, unless it has been given a text to fail with. -/
def notesAndApplies (failure : Option String) : Dictionary (List (Statement Expr)) :=
  .ofList [("outer", [⟨2, .metadata (some "seen"), .content⟩,
      ⟨3, .path ["a"], .array [.literal .null, .apply "inner"]⟩]),
    ("inner", [⟨6, .var "v", .content⟩, ⟨7, .path ["b"], failure.elim (.var "v") .throw⟩])]

/-- Two maps are entered on the way, so that at a depth of 62 there is just room for them. -/
theorem evaluation_of_deeper_of_notesAndApplies :
    (3 ≤ 62) ∧
    (evaluate (notesAndApplies (some "no")) ⟨none, 0⟩ (.apply "outer")
      ⟨.empty, .ofContents [[65]], 3⟩).1 =
        .error (.apply "outer" (.query 3 (.apply "inner" (.query 7 (.thrown "no"))))) ∧
    (evaluate (notesAndApplies (some "no")) ⟨none, 0⟩ (.apply "outer")
      ⟨.empty, .ofContents [[65]], 3⟩).2.batch = ⟨[⟨[65], Dictionary.empty.insert "seen" "A"⟩]⟩ ∧
    (run (notesAndApplies none) ⟨none, 0⟩ [⟨9, .path [], .apply "outer"⟩]
      ⟨.empty, .ofContents [[65]], 3⟩).1 =
        .ok (some (.object [("a", .array [.null, .object [("b", .string "A")]])])) ∧
    (run (notesAndApplies none) ⟨none, 0⟩ [⟨9, .path [], .apply "outer"⟩]
      ⟨.empty, .ofContents [[65]], 3⟩).2.vars = Dictionary.empty.insert "v" (.string "A") ∧
    (run (notesAndApplies none) ⟨none, 0⟩ [⟨9, .path [], .apply "outer"⟩]
      ⟨.empty, .ofContents [[65]], 63⟩).1 =
        .error (.query 9 (.apply "outer" (.query 3 (.recursionLimit "inner")))) := by
  have hle : 3 ≤ 62 := by decide
  obtain ⟨hexpr, -⟩ := evaluation_of_deeper (notesAndApplies (some "no")) ⟨none, 0⟩ .empty
    (.ofContents [[65]]) hle
  obtain ⟨-, hstatements⟩ := evaluation_of_deeper (notesAndApplies none) ⟨none, 0⟩ .empty
    (.ofContents [[65]]) hle
  have hfails := hexpr (.apply "outer") (by
    intro error map herror
    cases herror
    nofun)
  have hbuilds := hstatements [⟨9, .path [], .apply "outer"⟩] nofun
  exact ⟨hle, hfails.1.trans rfl, hfails.2.batch.trans rfl, hbuilds.1.trans rfl,
    hbuilds.2.vars.trans rfl, rfl⟩

end Remap
