import Mathlib.Data.List.Forall2
import Remap.Proofs.Commit
import Remap.Proofs.Reached

/-!
Expressions do not see the staged document.  Where path statements put their values decides what is
committed and whether a write is refused, and nothing else: two runs that succeed and differ only in
these places go through the same values, variables and metadata.
-/

namespace Remap

variable {ε : Type}

/-- The same target, or two paths. -/
def Target.Similar (first second : Target) : Prop :=
  first = second ∨ (∃ segments, first = .path segments) ∧ ∃ segments, second = .path segments

/-- Statements that differ at most in their target paths. -/
structure Statement.Similar (first second : Statement ε) : Prop where
  line : first.line = second.line
  query : first.query = second.query
  target : first.target.Similar second.target

theorem Statement.Similar.refl (statement : Statement ε) : statement.Similar statement :=
  ⟨rfl, rfl, .inl rfl⟩

theorem Target.keep_of_assign_path {segments : List String} {value : Value} {vars : Vars}
    {metadata : Metadata} {output : Option Value} {places : Places}
    (h : (Target.path segments).assign value ⟨vars, metadata, output⟩ = .ok places)
    (state : State) (index : Nat) :
    state.keep index places = state.keep index ⟨vars, metadata, none⟩ := by
  obtain ⟨written, -, rfl⟩ := Target.assign_path_eq_ok_iff.mp h
  rfl

/-- What an assignment does besides the output depends neither on its path nor on the output. -/
theorem Target.Similar.keep_eq {first second : Target} (h : first.Similar second) {value : Value}
    {vars : Vars} {metadata : Metadata} {output₁ output₂ : Option Value} {places₁ places₂ : Places}
    (hfirst : first.assign value ⟨vars, metadata, output₁⟩ = .ok places₁)
    (hsecond : second.assign value ⟨vars, metadata, output₂⟩ = .ok places₂) (state : State)
    (index : Nat) : state.keep index places₁ = state.keep index places₂ := by
  rcases h with rfl | ⟨⟨_, rfl⟩, _, rfl⟩
  · by_cases hpath : ∃ segments, first = .path segments
    · obtain ⟨segments, rfl⟩ := hpath
      rw [Target.keep_of_assign_path hfirst, Target.keep_of_assign_path hsecond]
    · have hsame := Target.assign_withOutput (not_exists.mp hpath) value
        ⟨vars, metadata, output₁⟩ output₂
      rw [hfirst, hsecond] at hsame
      cases hsame
      rfl
  · rw [Target.keep_of_assign_path hfirst, Target.keep_of_assign_path hsecond]

/-- Runs of similar statements that succeed have the same values and end in the same state. -/
theorem Completes.eq_of_similar {eval : ε → State → Outcome QueryError Value} {index : Nat}
    {output₁ output₂ final₁ final₂ : Option Value} {state after₁ after₂ : State}
    {first second : List (Statement ε)} {values₁ values₂ : List Value}
    (h : List.Forall₂ Statement.Similar first second)
    (hfirst : Completes eval index output₁ state first values₁ final₁ after₁)
    (hsecond : Completes eval index output₂ state second values₂ final₂ after₂) :
    values₁ = values₂ ∧ after₁ = after₂ := by
  induction h generalizing output₁ output₂ state values₁ values₂ with
  | nil =>
      cases hfirst
      cases hsecond
      exact ⟨rfl, rfl⟩
  | cons hhead _ ih =>
      cases hfirst with
      | cons hvalue₁ hpart₁ hplaces₁ hrest₁ =>
          cases hsecond with
          | cons hvalue₂ hpart₂ hplaces₂ hrest₂ =>
              rw [hhead.query, hvalue₂] at hvalue₁
              cases hvalue₁
              rw [hpart₂] at hpart₁
              cases hpart₁
              rw [hhead.target.keep_eq hplaces₁ hplaces₂] at hrest₁
              obtain ⟨rfl, rfl⟩ := ih hrest₁ hrest₂
              exact ⟨rfl, rfl⟩

namespace Plan

/-- Two mappings of a part that succeed and differ only in target paths. -/
theorem exists_values_of_similar [Language ε] {first second : Plan ε} {index : Nat} {batch : Batch}
    {part : Part} (hpart : batch.get index = .ok part) (hmaps : first.maps = second.maps)
    (hstatements : List.Forall₂ Statement.Similar first.statements second.statements)
    (hfirst : (first.mapPart index batch).1 = .ok ())
    (hsecond : (second.mapPart index batch).1 = .ok ()) :
    ∃ values output₁ output₂ after,
      Completes (first.evalPart part index) index none (.start batch) first.statements values
        output₁ after ∧
      Completes (second.evalPart part index) index none (.start batch) second.statements values
        output₂ after ∧
      (first.mapPart index batch).2 = after.batch.commit index output₁ ∧
      (second.mapPart index batch).2 = after.batch.commit index output₂ := by
  obtain ⟨part₁, output₁, after₁, hpart₁, hrun₁, hbatch₁⟩ := exists_commit_of_ok hfirst
  obtain ⟨part₂, output₂, after₂, hpart₂, hrun₂, hbatch₂⟩ := exists_commit_of_ok hsecond
  rw [hpart] at hpart₁ hpart₂
  cases hpart₁
  cases hpart₂
  obtain ⟨values₁, hcompletes₁⟩ := execPart_eq_ok_iff.mp hrun₁
  obtain ⟨values₂, hcompletes₂⟩ := execPart_eq_ok_iff.mp hrun₂
  have heval : first.evalPart part index = second.evalPart part index := by
    rw [evalPart, evalPart, hmaps]
  rw [heval] at hcompletes₁ ⊢
  obtain ⟨rfl, rfl⟩ := hcompletes₁.eq_of_similar hstatements hcompletes₂
  exact ⟨values₁, output₁, output₂, after₁, hcompletes₁, hcompletes₂, hbatch₁, hbatch₂⟩

/-- Wherever `content` is evaluated it is the content before the run. -/
theorem Reaches.eval_content {plan : Plan Expr} {part : Part} {index left : Nat} {batch : Batch}
    {state : State} (hpart : batch.get index = .ok part)
    (h : plan.Reaches part index batch left .content state) (input : Input)
    (hindex : input.index = index) (apply : Apply) :
    Expr.eval input apply .content state = (.ok (.string (String.ofList part.text)), state) := by
  obtain ⟨later, hlater⟩ := h.framed.exists_get_eq_ok hpart
  have hcontent := h.framed.content_eq hpart
  rw [Batch.get_eq_ok_iff.mp hlater, Option.map_some, Option.some.injEq] at hcontent
  rw [Expr.eval, hindex, hlater]
  simp only [Part.text, hcontent]

/-- Two runs that succeed and differ only in target paths evaluate each statement to the same value,
end with the same variables, and leave the same metadata everywhere and the same other parts.  What
any statement, at the top level or in an applied map, reads of the part is what it held before. -/
theorem mapPart_ignores_staged_output :
    (∀ {ε : Type} [Language ε] (first second : Plan ε) (index : Nat) (batch : Batch) (part : Part),
      batch.get index = .ok part → first.maps = second.maps →
      List.Forall₂ Statement.Similar first.statements second.statements →
      (first.mapPart index batch).1 = .ok () → (second.mapPart index batch).1 = .ok () →
      ∃ values output₁ output₂ after,
        Completes (first.evalPart part index) index none (.start batch) first.statements values
          output₁ after ∧
        Completes (second.evalPart part index) index none (.start batch) second.statements values
          output₂ after ∧
        (first.mapPart index batch).2.parts.map Part.metadata =
          (second.mapPart index batch).2.parts.map Part.metadata ∧
        ∀ other, other ≠ index →
          (first.mapPart index batch).2.parts[other]? =
            (second.mapPart index batch).2.parts[other]?) ∧
    (∀ (plan : Plan Expr) (index : Nat) (batch : Batch) (part : Part),
      batch.get index = .ok part → ∀ (left : Nat) (state : State),
      (plan.Reaches part index batch left .content state →
        Expr.eval ⟨part.document?, index⟩ (applyMap plan.maps ⟨part.document?, index⟩ left)
          .content state = (.ok (.string (String.ofList part.text)), state)) ∧
      ∀ path, plan.Reaches part index batch left (.document path) state →
        Expr.eval ⟨part.document?, index⟩ (applyMap plan.maps ⟨part.document?, index⟩ left)
          (.document path) state =
            (match part.document? with
              | none => .error .noDocument
              | some document => .ok ((document.get? path).getD .null), state)) := by
  refine ⟨?_, ?_⟩
  · intro ε _ first second index batch part hpart hmaps hstatements hfirst hsecond
    obtain ⟨values, output₁, output₂, after, hcompletes₁, hcompletes₂, hbatch₁, hbatch₂⟩ :=
      exists_values_of_similar hpart hmaps hstatements hfirst hsecond
    refine ⟨values, output₁, output₂, after, hcompletes₁, hcompletes₂, ?_, ?_⟩
    · rw [hbatch₁, hbatch₂, Batch.map_metadata_commit, Batch.map_metadata_commit]
    · intro other hne
      rw [hbatch₁, hbatch₂, (Batch.commit_kept after.batch index output₁).others other hne,
        (Batch.commit_kept after.batch index output₂).others other hne]
  · intro plan index batch part hpart left state
    refine ⟨fun hcontent => hcontent.eval_content hpart ⟨part.document?, index⟩ rfl _, ?_⟩
    intro path _
    rw [Expr.eval]
    cases part.document? <;> rfl

/-- A document is staged at a path before a map reads the content and the input document. -/
def readsAfterWriting (staged : List String) : Plan Expr where
  maps := .ofList [("reads", [⟨2, .metadata (some "was"), .content⟩,
    ⟨3, .path ["was"], .document ["a"]⟩])]
  statements := [⟨5, .path staged, .object [("a", .literal .null)]⟩,
    ⟨6, .path ["b"], .apply "reads"⟩]

theorem mapPart_ignores_staged_output_of_readsAfterWriting :
    ((readsAfterWriting []).mapPart 0 (.ofContents [[49], [50]])).1 = .ok () ∧
    ((readsAfterWriting []).mapPart 0 (.ofContents [[49], [50]])).2.parts.map Part.metadata =
      ((readsAfterWriting ["c"]).mapPart 0 (.ofContents [[49], [50]])).2.parts.map Part.metadata ∧
    (Expr.eval ⟨(Part.ofContent [49]).document?, 0⟩
      (applyMap (readsAfterWriting []).maps ⟨(Part.ofContent [49]).document?, 0⟩ 63) .content
      ⟨.empty, .ofContents [[49], [50]], 1⟩).1 = .ok (.string "1") := by
  have hsimilar : List.Forall₂ Statement.Similar (readsAfterWriting []).statements
      (readsAfterWriting ["c"]).statements :=
    .cons ⟨rfl, rfl, .inr ⟨⟨[], rfl⟩, ⟨["c"], rfl⟩⟩⟩ (.cons (.refl _) .nil)
  have hreached : (readsAfterWriting []).Reaches (.ofContent [49]) 0 (.ofContents [[49], [50]]) 63
      .content ⟨.empty, .ofContents [[49], [50]], 1⟩ :=
    ⟨[⟨5, .path [], .object [("a", .literal .null)]⟩], ⟨6, .path ["b"], .apply "reads"⟩, [], _, _,
      rfl, rfl, .apply (show _ = some ([] ++ _ :: [_]) from rfl) rfl .here⟩
  obtain ⟨htwo, hone⟩ := mapPart_ignores_staged_output
  obtain ⟨values, output₁, output₂, after, -, -, hmetadata, -⟩ :=
    htwo (readsAfterWriting []) (readsAfterWriting ["c"]) 0 (.ofContents [[49], [50]])
      (.ofContent [49]) rfl rfl hsimilar rfl rfl
  have hcontent := (hone (readsAfterWriting []) 0 (.ofContents [[49], [50]]) (.ofContent [49]) rfl
    63 ⟨.empty, .ofContents [[49], [50]], 1⟩).1 hreached
  exact ⟨rfl, hmetadata, congrArg Prod.fst hcontent⟩

end Plan

end Remap
