import Remap.Proofs.Frame

/-!
What a run evaluates.  Besides the expressions of its statements these are the items and fields of
the expressions that it evaluates, and the expressions of the maps that they apply, each in the
state that the steps before it left.
-/

namespace Remap

/-- Evaluating the first expression in the first state, with room for so many levels of maps,
evaluates the second one in the second state, with the room that is left there. -/
inductive Expr.Reaches (maps : Dictionary (List (Statement Expr))) (input : Input) :
    Nat → Expr → State → Nat → Expr → State → Prop
  | here {room : Nat} {expr : Expr} {state : State} :
      Reaches maps input room expr state room expr state
  | item {room left : Nat} {before after : List Expr} {item expr : Expr}
      {state between reached : State} {values : List Value} :
      evalItems input (applyMap maps input room) before state = (.ok values, between) →
      Reaches maps input room item between left expr reached →
      Reaches maps input room (.array (before ++ item :: after)) state left expr reached
  | field {room left : Nat} {before after : List (String × Expr)} {key : String}
      {field expr : Expr} {state between reached : State} {values : List (String × Value)} :
      evalFields input (applyMap maps input room) before state = (.ok values, between) →
      Reaches maps input room field between left expr reached →
      Reaches maps input room (.object (before ++ (key, field) :: after)) state left expr reached
  | apply {room left : Nat} {name : String} {before after : List (Statement Expr)}
      {statement : Statement Expr} {expr : Expr} {state between reached : State}
      {output : Option Value} :
      maps.get? name = some (before ++ statement :: after) →
      runFrom (eval input (applyMap maps input room)) input.index none before state.enter =
        (.ok output, between) →
      Reaches maps input room statement.query between left expr reached →
      Reaches maps input (room + 1) (.apply name) state left expr reached

/-- Mapping the part evaluates an expression in a state, at the top level or in an applied map. -/
def Plan.Reaches (plan : Plan Expr) (part : Part) (index : Nat) (batch : Batch) (left : Nat)
    (expr : Expr) (reached : State) : Prop :=
  ∃ before statement after output between,
    plan.statements = before ++ statement :: after ∧
    runFrom (plan.evalPart part index) index none before (.start batch) = (.ok output, between) ∧
    Expr.Reaches plan.maps ⟨part.document?, index⟩ maxApplyDepth statement.query between left expr
      reached

variable {maps : Dictionary (List (Statement Expr))} {input : Input} {R : State → State → Prop}

/-- What every step respects, entering a map included, holds up to all that is evaluated. -/
theorem Expr.Reaches.related (closed : RunClosed input.index R)
    (enter : ∀ state, R state state.enter) {room left : Nat} {expr found : Expr}
    {state reached : State} (h : Expr.Reaches maps input room expr state left found reached) :
    R state reached := by
  induction h with
  | here => exact closed.refl _
  | @item room _ before _ _ _ state _ _ _ hbefore _ ih =>
      have hitems : R state (evalItems input (applyMap maps input room) before state).2 :=
        evalItems_related closed.toChained (closed.applyMap room) before state
      rw [hbefore] at hitems
      exact closed.trans hitems ih
  | @field room _ before _ _ _ _ state _ _ _ hbefore _ ih =>
      have hfields : R state (evalFields input (applyMap maps input room) before state).2 :=
        evalFields_related closed.toChained (closed.applyMap room) before state
      rw [hbefore] at hfields
      exact closed.trans hfields ih
  | @apply room _ _ before _ _ _ state _ _ _ _ hbefore _ ih =>
      have heval : ∀ query state,
          R state (Expr.eval input (applyMap maps input room) query state).2 :=
        closed.evalQuery maps room
      have hrun := closed.runFrom heval none before state.enter
      rw [hbefore] at hrun
      exact closed.trans (enter state) (closed.trans hrun ih)

theorem Plan.Reaches.framed {plan : Plan Expr} {part : Part} {index left : Nat} {batch : Batch}
    {expr : Expr} {reached : State} (h : plan.Reaches part index batch left expr reached) :
    Batch.Framed index batch reached.batch := by
  obtain ⟨before, statement, after, output, between, -, hbefore, hreaches⟩ := h
  have closed := framed_runClosed (Input.mk part.document? index).index
  have hrun := closed.runFrom (closed.evalQuery plan.maps maxApplyDepth) none before (.start batch)
  change Batch.Framed index batch
    (runFrom (plan.evalPart part index) index none before (.start batch)).2.batch at hrun
  rw [hbefore] at hrun
  exact hrun.trans (hreaches.related closed fun state => .refl index state.batch)

end Remap
