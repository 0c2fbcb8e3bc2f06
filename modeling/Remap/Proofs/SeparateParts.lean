import Remap.Proofs.Lockstep

/-!
Runs on different parts.  What a run does depends on its own part only, so states in which that part
and the variables are the same cannot be told apart.  A run on another part leaves this one alone,
and so it does not matter which of the two comes first.
-/

namespace Remap

namespace Batch

/-- Metadata that is replaced is what is found afterwards. -/
theorem get_setMetadata (batch : Batch) (index : Nat) (metadata : Metadata) :
    (batch.setMetadata index metadata).get index =
      (batch.get index).map ({ · with metadata }) := by
  simp only [get, setMetadata, List.getElem?_modify_eq, size, List.length_modify]
  cases batch.parts[index]? <;> rfl

theorem getElem?_eq_of_get_eq {first second : Batch} {index : Nat}
    (h : first.get index = second.get index) : first.parts[index]? = second.parts[index]? := by
  apply Option.ext
  intro part
  rw [← get_eq_ok_iff, ← get_eq_ok_iff, h]

/-- Another part is found as before, or not found as before. -/
theorem Kept.get_eq {index other : Nat} {before after : Batch} (h : Kept index before after)
    (hne : other ≠ index) : after.get other = before.get other := by
  rw [get, get, h.others other hne, h.size]

/-- The same document becomes the content of parts that are the same. -/
theorem get_commit {first second : Batch} {index : Nat} (h : first.get index = second.get index)
    (output : Option Value) :
    (first.commit index output).get index = (second.commit index output).get index := by
  cases output with
  | none => exact h
  | some document =>
      have hsame (batch : Batch) : (batch.commit index (some document)).get index =
          (batch.get index).map (·.withDocument document) := by
        simp only [get, commit, List.getElem?_modify_eq, size, List.length_modify]
        cases batch.parts[index]? <;> rfl
      rw [hsame, hsame, h]

end Batch

/-- States that a run on the part at `index` cannot tell apart. -/
structure State.Alike (index : Nat) (first second : State) : Prop where
  vars : first.vars = second.vars
  part : first.batch.get index = second.batch.get index

theorem State.alike_paired (index : Nat) : Paired index (State.Alike index) where
  vars h := h.vars
  metadata h := by rw [h.part]
  keep places h := ⟨rfl, by
    simp only [State.keep, Batch.get_setMetadata]
    rw [h.part]⟩
  enter h := ⟨h.vars, h.part⟩
  leave h := ⟨h.vars, h.part⟩

/-- What has no parts of its own reads the input, the variables and the part. -/
theorem Expr.IsSimple.eval_alike {expr : Expr} (h : expr.IsSimple) {input : Input}
    {first second : State} (halike : first.Alike input.index second) (apply₁ apply₂ : Apply) :
    (eval input apply₁ expr first).1 = (eval input apply₂ expr second).1 := by
  cases expr with
  | array items | object fields | apply map => exact h.elim
  | literal value | throw message => rfl
  | document path =>
      simp only [eval]
      cases input.document <;> rfl
  | var name =>
      simp only [eval, halike.vars]
      cases second.vars.get? name <;> rfl
  | metadata key =>
      simp only [eval, halike.part]
      cases second.batch.get input.index with
      | error cause => rfl
      | ok part => cases key <;> rfl
  | content =>
      simp only [eval, halike.part]
      cases second.batch.get input.index <;> rfl

/-- Runs with one document whose states cannot be told apart stay in step: all atoms read in them
what they read in the other run, so only the maps that are applied count. -/
theorem Paired.lockstep {index : Nat} {R : State → State → Prop} (paired : Paired index R)
    (halike : ∀ {first second : State}, R first second → first.Alike index second)
    (excused : RootCause → Prop) (document : Option Value) {such : Expr → Prop}
    {maps₁ maps₂ : Dictionary (List (Statement Expr))}
    (hmaps : ∀ name, such (.apply name) → maps₁.get? name = maps₂.get? name)
    (hbodies : ∀ name body, such (.apply name) → maps₁.get? name = some body →
      ∀ statement ∈ body, ∀ atom ∈ statement.query.atoms, such atom) :
    Lockstep index R excused such maps₁ maps₂ document document where
  toPaired := paired
  reads apply₁ apply₂ _ hsimple := by
    intro before after hstates
    rw [hsimple.eval_eq apply₁ apply₁ before, hsimple.eval_eq apply₂ apply₂ after]
    exact .inl ⟨hsimple.eval_alike (halike hstates) apply₁ apply₂, hstates⟩
  maps := hmaps _
  bodies := hbodies _ _

theorem State.alike_lockstep (index : Nat) (excused : RootCause → Prop) (document : Option Value)
    {such : Expr → Prop} {maps₁ maps₂ : Dictionary (List (Statement Expr))}
    (hmaps : ∀ name, such (.apply name) → maps₁.get? name = maps₂.get? name)
    (hbodies : ∀ name body, such (.apply name) → maps₁.get? name = some body →
      ∀ statement ∈ body, ∀ atom ∈ statement.query.atoms, such atom) :
    Lockstep index (State.Alike index) excused such maps₁ maps₂ document document :=
  (State.alike_paired index).lockstep id excused document hmaps hbodies

namespace Plan

/-- A run on a part that is the same in two batches has the same result, and the states that it
leaves are alike. -/
theorem execPart_alike (plan : Plan Expr) (part : Part) {index : Nat} {first second : Batch}
    (h : first.get index = second.get index) :
    (plan.execPart part index first).1 = (plan.execPart part index second).1 ∧
      (plan.execPart part index first).2.Alike index (plan.execPart part index second).2 := by
  have halike : State.Alike index (.start first) (.start second) := ⟨rfl, h⟩
  have hsuch : ∀ statement ∈ plan.statements, ∀ atom ∈ statement.query.atoms, True :=
    fun _ _ _ _ => trivial
  have hlockstep : Lockstep index (State.Alike index) (fun _ => False) (fun _ => True) plan.maps
      plan.maps part.document? part.document? :=
    State.alike_lockstep index _ _ (fun _ _ => rfl) fun _ _ _ _ _ _ _ _ => trivial
  have hagrees := hlockstep.run_agrees (Nat.le_refl maxApplyDepth)
    (fun hlt => absurd hlt (Nat.lt_irrefl _)) hsuch none _ _ halike
  exact hagrees.unexcused fun _ _ => id

/-- The mapping of a part depends on that part only. -/
theorem mapPart_alike (plan : Plan Expr) {index : Nat} {first second : Batch}
    (h : first.get index = second.get index) :
    (plan.mapPart index first).1 = (plan.mapPart index second).1 ∧
      (plan.mapPart index first).2.get index = (plan.mapPart index second).2.get index := by
  cases hsecond : second.get index with
  | error cause =>
      rw [mapPart_of_noPart hsecond, mapPart_of_noPart (h.trans hsecond)]
      exact ⟨rfl, h⟩
  | ok part =>
      have hfirst := h.trans hsecond
      obtain ⟨hresult, halike⟩ := plan.execPart_alike part h
      cases hrun : (plan.execPart part index second).1 with
      | error cause =>
          rw [mapPart_of_error hfirst (Prod.ext (hresult.trans hrun) rfl),
            mapPart_of_error hsecond (Prod.ext hrun rfl)]
          exact ⟨rfl, halike.part⟩
      | ok output =>
          rw [mapPart_eq_commit hfirst (hresult.trans hrun), mapPart_eq_commit hsecond hrun]
          exact ⟨rfl, Batch.get_commit halike.part output⟩

/-- The mapping of another part is not noticed. -/
theorem mapPart_after (plan other : Plan Expr) (batch : Batch) {index place : Nat}
    (hne : index ≠ place) :
    (plan.mapPart index (other.mapPart place batch).2).1 = (plan.mapPart index batch).1 ∧
      (plan.mapPart index (other.mapPart place batch).2).2.parts[index]? =
        (plan.mapPart index batch).2.parts[index]? := by
  have hpart := (other.mapPart_kept place batch).get_eq hne
  obtain ⟨hresult, hget⟩ := plan.mapPart_alike hpart
  exact ⟨hresult, Batch.getElem?_eq_of_get_eq hget⟩

/-- Mappings of different parts, there or not, commute: the batch is the same in the end, and each
of the two has the result that it has alone.  What the statements of the one build, the variables
and the part that they leave are the same whether the other one has been run before or not. -/
theorem mapPart_comm (first second : Plan Expr) (batch : Batch) {i j : Nat} (hne : i ≠ j) :
    (second.mapPart j (first.mapPart i batch).2).2 =
        (first.mapPart i (second.mapPart j batch).2).2 ∧
      (first.mapPart i (second.mapPart j batch).2).1 = (first.mapPart i batch).1 ∧
      (second.mapPart j (first.mapPart i batch).2).1 = (second.mapPart j batch).1 ∧
      ∀ part, batch.get j = .ok part →
        (second.execPart part j (first.mapPart i batch).2).1 =
            (second.execPart part j batch).1 ∧
          (second.execPart part j (first.mapPart i batch).2).2.Alike j
            (second.execPart part j batch).2 := by
  obtain ⟨hfirst, hi⟩ := first.mapPart_after second batch hne
  obtain ⟨hsecond, hj⟩ := second.mapPart_after first batch hne.symm
  refine ⟨?_, hfirst, hsecond, ?_⟩
  · have hkeeps := (first.mapPart_kept i (second.mapPart j batch).2).others
    have hkept := (second.mapPart_kept j (first.mapPart i batch).2).others
    have hparts (position : Nat) :
        (second.mapPart j (first.mapPart i batch).2).2.parts[position]? =
          (first.mapPart i (second.mapPart j batch).2).2.parts[position]? := by
      by_cases hpi : position = i
      · subst hpi
        rw [hkept position hne, hi]
      · by_cases hpj : position = j
        · subst hpj
          rw [hkeeps position hpi, hj]
        · rw [hkept position hpj, hkeeps position hpi,
            (first.mapPart_kept i batch).others position hpi,
            (second.mapPart_kept j batch).others position hpj]
    exact congrArg Batch.mk (List.ext_getElem? hparts)
  · intro part hpart
    exact second.execPart_alike part ((first.mapPart_kept i batch).get_eq hne.symm)

/-- Notes its content and a variable in the metadata, and then fails. -/
def notesAndFails : Plan Expr where
  maps := .empty
  statements := [⟨1, .var "v", .content⟩, ⟨2, .metadata (some "note"), .var "v"⟩,
    ⟨3, .path [], .throw "no"⟩]

/-- Builds a document of all that it can read besides its own statements. -/
def readsAround : Plan Expr where
  maps := .ofList [("all", [⟨2, .path ["all"], .array [.content, .metadata none]⟩])]
  statements := [⟨4, .path ["a"], .apply "all"⟩, ⟨5, .path ["b"], .literal .null⟩]

theorem mapPart_comm_of_notesAndFails :
    (0 ≠ 1) ∧
    (notesAndFails.mapPart 0 (.ofContents [[65], [66]])).1 = .error (.query 3 (.thrown "no")) ∧
    (readsAround.mapPart 1 (notesAndFails.mapPart 0 (.ofContents [[65], [66]])).2).1 = .ok () ∧
    (readsAround.mapPart 1 (notesAndFails.mapPart 0 (.ofContents [[65], [66]])).2).2 =
      ⟨[⟨[65], Dictionary.empty.insert "note" "A"⟩,
        ⟨Utf8.encode "\x7b\"a\":\x7b\"all\":[\"B\",\x7b\x7d]\x7d,\"b\":null\x7d".toList,
          .empty⟩]⟩ ∧
    (readsAround.mapPart 1 (notesAndFails.mapPart 0 (.ofContents [[65], [66]])).2).2 =
      (notesAndFails.mapPart 0 (readsAround.mapPart 1 (.ofContents [[65], [66]])).2).2 := by
  obtain ⟨hbatches, -, hsecond, -⟩ :=
    mapPart_comm notesAndFails readsAround (.ofContents [[65], [66]]) (i := 0) (j := 1) (by decide)
  exact ⟨by decide, rfl, hsecond.trans rfl, by decide +kernel, hbatches⟩

end Plan

end Remap
