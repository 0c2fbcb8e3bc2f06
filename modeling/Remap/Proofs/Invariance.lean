import Remap.Run.Map
import Remap.Run.Query

/-!
What a run can do to its state.  Expressions change nothing by themselves: between the start and the
end of a run there are only assignments and maps entered and left.  So a relation between an earlier
and a later state that one assignment and one map respect holds across every run, however it ends.
-/

namespace Remap

variable {ε : Type}

/-- A relation between an earlier and a later state that adds up along a run. -/
structure Chained (R : State → State → Prop) : Prop where
  refl (state : State) : R state state
  trans {first second third : State} : R first second → R second third → R first third

/-- A chained relation that every step of a run on the part at `index` respects. -/
structure RunClosed (index : Nat) (R : State → State → Prop) : Prop extends Chained R where
  keep {target : Target} {value : Value} {state : State} {part : Part} {output : Option Value}
    {places : Places} : state.batch.get index = .ok part →
    target.assign value ⟨state.vars, part.metadata, output⟩ = .ok places →
    R state (state.keep index places)
  leave {state after : State} : R state.enter after → R state after.leave

/-- A language in which evaluating does to the state what the applied maps do, and nothing else. -/
class InertLanguage (ε : Type) [Language ε] : Prop where
  eval_related {R : State → State → Prop} {input : Input} {apply : Apply} (chained : Chained R)
    (happly : ∀ map state, R state (apply map state).2) (query : ε) (state : State) :
    R state (Language.eval input apply query state).2

namespace Expr

section

variable {R : State → State → Prop} {input : Input} {apply : Apply}

mutual

theorem eval_related (chained : Chained R) (happly : ∀ map state, R state (apply map state).2) :
    ∀ (expr : Expr) (state : State), R state (eval input apply expr state).2
  | .literal _, state | .throw _, state => chained.refl state
  | .array items, state => by
      have hitems := evalItems_related chained happly items state
      rw [eval]
      split <;> (rename_i heq; simpa [heq] using hitems)
  | .object fields, state => by
      have hfields := evalFields_related chained happly fields state
      rw [eval]
      split <;> (rename_i heq; simpa [heq] using hfields)
  | .document _, state | .var _, state | .content, state => by
      rw [eval]
      split <;> exact chained.refl state
  | .metadata _, state => by
      rw [eval]
      split
      · exact chained.refl state
      · split <;> exact chained.refl state
  | .apply map, state => happly map state

theorem evalItems_related (chained : Chained R)
    (happly : ∀ map state, R state (apply map state).2) :
    ∀ (items : List Expr) (state : State), R state (evalItems input apply items state).2
  | [], state => chained.refl state
  | item :: rest, state => by
      have hitem := eval_related chained happly item state
      rw [evalItems]
      split
      · rename_i heq
        simpa [heq] using hitem
      · rename_i value after heq
        rw [heq] at hitem
        have hrest := evalItems_related chained happly rest after
        split <;> (rename_i hrestEq; rw [hrestEq] at hrest; exact chained.trans hitem hrest)

theorem evalFields_related (chained : Chained R)
    (happly : ∀ map state, R state (apply map state).2) :
    ∀ (fields : List (String × Expr)) (state : State),
      R state (evalFields input apply fields state).2
  | [], state => chained.refl state
  | (_, field) :: rest, state => by
      have hfield := eval_related chained happly field state
      rw [evalFields]
      split
      · rename_i heq
        simpa [heq] using hfield
      · rename_i value after heq
        rw [heq] at hfield
        have hrest := evalFields_related chained happly rest after
        split <;> (rename_i hrestEq; rw [hrestEq] at hrest; exact chained.trans hfield hrest)

end

end

instance : InertLanguage Expr where
  eval_related := eval_related

end Expr

instance : InertLanguage Query where
  eval_related {R input apply} chained happly query state := by
    cases query with
    | expr e => exact e.eval_related chained happly state
    | partialResult e =>
        have he : R state (e.eval input apply state).2 := e.eval_related chained happly state
        simp only [Language.eval, Query.eval]
        split <;> (rename_i heq; simpa [heq] using he)
    | fixed value => exact chained.refl state

namespace RunClosed

variable {index : Nat} {R : State → State → Prop}

theorem runFrom (closed : RunClosed index R) {eval : ε → State → Outcome QueryError Value}
    (heval : ∀ query state, R state (eval query state).2) (output : Option Value)
    (statements : List (Statement ε)) (state : State) :
    R state (runFrom eval index output statements state).2 := by
  induction statements generalizing output state with
  | nil => exact closed.refl state
  | cons statement rest ih =>
      have hquery := heval statement.query state
      rw [Remap.runFrom]
      split
      · rename_i heq
        simpa [heq] using hquery
      · rename_i value evaluated heq
        rw [heq] at hquery
        split
        · exact hquery
        · rename_i part hpart
          split
          · exact hquery
          · rename_i places hplaces
            exact closed.trans hquery (closed.trans (closed.keep hpart hplaces) (ih _ _))

theorem applyMap [Language ε] [InertLanguage ε] {maps : Dictionary (List (Statement ε))}
    {input : Input} (closed : RunClosed input.index R) (room : Nat) (name : String)
    (state : State) : R state (applyMap maps input room name state).2 := by
  induction room generalizing name state with
  | zero =>
      rw [Remap.applyMap]
      split <;> exact closed.refl state
  | succ room ih =>
      rw [Remap.applyMap]
      split
      · exact closed.refl state
      · rename_i statements hstatements
        have heval : ∀ (query : ε) (state : State),
            R state (Language.eval input (Remap.applyMap maps input room) query state).2 :=
          InertLanguage.eval_related closed.toChained ih
        have hrun := closed.runFrom heval none statements state.enter
        split <;> (rename_i heq; rw [heq] at hrun; exact closed.leave hrun)

theorem evalQuery [Language ε] [InertLanguage ε] {input : Input}
    (closed : RunClosed input.index R) (maps : Dictionary (List (Statement ε))) (room : Nat)
    (query : ε) (state : State) :
    R state (Language.eval input (Remap.applyMap maps input room) query state).2 :=
  InertLanguage.eval_related closed.toChained (closed.applyMap room) query state

/-- What every step respects holds between the first and the last state of a run. -/
theorem run [Language ε] [InertLanguage ε] {input : Input} (closed : RunClosed input.index R)
    (maps : Dictionary (List (Statement ε))) (statements : List (Statement ε)) (state : State) :
    R state (run maps input statements state).2 :=
  closed.runFrom (closed.evalQuery maps state.room) none statements state

end RunClosed

end Remap
