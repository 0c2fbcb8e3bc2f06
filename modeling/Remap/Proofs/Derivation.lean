import Remap.Proofs.Failures

/-!
Evaluation without a bound.  A derivation follows the rules of evaluation alone: an applied map is
entered as long as the depth of the state allows it, and nothing else limits the recursion.  Every
expression has exactly one derivation's outcome, the one that `evaluate` computes, so evaluation
ends.  A derivation also keeps the statements of applied maps that it carries out.
-/

namespace Remap

/-- Statements that were carried out, in their order, each with the value of its expression. -/
abbrev Trace := List (Statement Expr × Value)

namespace Expr

/-- What the run of an applied map is to the expression that applies it. -/
def resultOf (map : String) : Except RunError (Option Value) → Except QueryError Value
  | .ok output => .ok (output.getD .null)
  | .error error => .error (.apply map error)

/-- The expression has no parts and applies no map. -/
def IsSimple : Expr → Prop
  | .array _ | .object _ | .apply _ => False
  | _ => True

mutual

/-- Evaluating an expression in a state carries out these statements of applied maps, has this
result and leaves this state. -/
inductive Evaluates (maps : Dictionary (List (Statement Expr))) (input : Input) :
    Expr → State → Trace → Except QueryError Value → State → Prop
  | simple {expr : Expr} {state : State} (apply : Apply) :
      expr.IsSimple →
      Evaluates maps input expr state [] (eval input apply expr state).1 state
  | array {items : List Expr} {state after : State} {trace : Trace}
      {result : Except QueryError (List Value)} :
      EvaluatesAll maps input items state trace result after →
      Evaluates maps input (.array items) state trace (result.map .array) after
  | object {fields : List (String × Expr)} {state after : State} {trace : Trace}
      {result : Except QueryError (List Value)} :
      EvaluatesAll maps input (fields.map (·.2)) state trace result after →
      Evaluates maps input (.object fields) state trace
        (result.map fun values => .object (Entries.ofList ((fields.map (·.1)).zip values))) after
  | undefinedMap {name : String} {state : State} :
      maps.get? name = none →
      Evaluates maps input (.apply name) state [] (.error (.undefinedMap name)) state
  | recursionLimit {name : String} {body : List (Statement Expr)} {state : State} :
      maps.get? name = some body → maxApplyDepth ≤ state.depth →
      Evaluates maps input (.apply name) state [] (.error (.recursionLimit name)) state
  | apply {name : String} {body : List (Statement Expr)} {state after : State} {trace : Trace}
      {result : Except RunError (Option Value)} :
      maps.get? name = some body → state.depth < maxApplyDepth →
      Runs maps input none body state.enter trace result after →
      Evaluates maps input (.apply name) state trace (resultOf name result) after.leave

/-- Evaluating expressions from left to right, up to the first failure. -/
inductive EvaluatesAll (maps : Dictionary (List (Statement Expr))) (input : Input) :
    List Expr → State → Trace → Except QueryError (List Value) → State → Prop
  | nil {state : State} : EvaluatesAll maps input [] state [] (.ok []) state
  | stop {item : Expr} {rest : List Expr} {state after : State} {trace : Trace}
      {error : QueryError} :
      Evaluates maps input item state trace (.error error) after →
      EvaluatesAll maps input (item :: rest) state trace (.error error) after
  | cons {item : Expr} {rest : List Expr} {state between after : State} {first others : Trace}
      {value : Value} {result : Except QueryError (List Value)} :
      Evaluates maps input item state first (.ok value) between →
      EvaluatesAll maps input rest between others result after →
      EvaluatesAll maps input (item :: rest) state (first ++ others) (result.map (value :: ·)) after

/-- Running statements in order, up to the first failure, on an output document begun before. -/
inductive Runs (maps : Dictionary (List (Statement Expr))) (input : Input) :
    Option Value → List (Statement Expr) → State → Trace → Except RunError (Option Value) →
      State → Prop
  | nil {output : Option Value} {state : State} :
      Runs maps input output [] state [] (.ok output) state
  | query {output : Option Value} {statement : Statement Expr} {rest : List (Statement Expr)}
      {state after : State} {trace : Trace} {error : QueryError} :
      Evaluates maps input statement.query state trace (.error error) after →
      Runs maps input output (statement :: rest) state trace
        (.error (.query statement.line error)) after
  | batch {output : Option Value} {statement : Statement Expr} {rest : List (Statement Expr)}
      {state after : State} {trace : Trace} {value : Value} {error : BatchError} :
      Evaluates maps input statement.query state trace (.ok value) after →
      after.batch.get input.index = .error error →
      Runs maps input output (statement :: rest) state trace (.error (.batch error)) after
  | assignment {output : Option Value} {statement : Statement Expr} {rest : List (Statement Expr)}
      {state after : State} {trace : Trace} {value : Value} {part : Part} {error : AssignError} :
      Evaluates maps input statement.query state trace (.ok value) after →
      after.batch.get input.index = .ok part →
      statement.target.assign value ⟨after.vars, part.metadata, output⟩ = .error error →
      Runs maps input output (statement :: rest) state trace
        (.error (.assignment statement.line error)) after
  | cons {output : Option Value} {statement : Statement Expr} {rest : List (Statement Expr)}
      {state evaluated after : State} {first others : Trace} {value : Value} {part : Part}
      {places : Places} {result : Except RunError (Option Value)} :
      Evaluates maps input statement.query state first (.ok value) evaluated →
      evaluated.batch.get input.index = .ok part →
      statement.target.assign value ⟨evaluated.vars, part.metadata, output⟩ = .ok places →
      Runs maps input places.output rest (evaluated.keep input.index places) others result after →
      Runs maps input output (statement :: rest) state (first ++ (statement, value) :: others)
        result after

end

end Expr

/-- A run gives back the depth that it got. -/
theorem depth_runClosed (index : Nat) :
    RunClosed index fun before after => after.depth = before.depth where
  refl _ := rfl
  trans first second := second.trans first
  keep _ _ := rfl
  leave h := by rw [State.leave, h, State.enter, Nat.add_sub_cancel]

theorem State.room_eq {before after : State} (h : after.depth = before.depth) :
    after.room = before.room := by
  rw [State.room, State.room, h]

theorem State.room_keep (state : State) (index : Nat) (places : Places) :
    (state.keep index places).room = state.room := rfl

/-- One level is used up by entering a map. -/
theorem State.room_enter {state : State} (h : state.depth < maxApplyDepth) :
    state.room = state.enter.room + 1 := by
  simp only [State.room, State.enter]
  omega

namespace Expr

theorem depth_eval (maps : Dictionary (List (Statement Expr))) (input : Input) (room : Nat)
    (expr : Expr) (state : State) :
    (eval input (applyMap maps input room) expr state).2.depth = state.depth :=
  (depth_runClosed input.index).evalQuery maps room expr state

variable {maps : Dictionary (List (Statement Expr))} {input : Input}

theorem eval_array (apply : Apply) (items : List Expr) (state : State) :
    eval input apply (.array items) state =
      ((evalItems input apply items state).1.map .array,
        (evalItems input apply items state).2) := by
  rw [eval]
  split <;> (rename_i heq; rw [heq]; rfl)

/-- Fields are evaluated as their expressions are, one after the other. -/
theorem evalFields_eq (apply : Apply) (fields : List (String × Expr)) (state : State) :
    evalFields input apply fields state =
      ((evalItems input apply (fields.map (·.2)) state).1.map ((fields.map (·.1)).zip ·),
        (evalItems input apply (fields.map (·.2)) state).2) := by
  induction fields generalizing state with
  | nil =>
      rw [evalFields]
      rfl
  | cons field rest ih =>
      obtain ⟨key, field⟩ := field
      simp only [evalFields, List.map_cons, evalItems]
      rcases eval input apply field state with ⟨_ | value, evaluated⟩
      · rfl
      · simp only [ih evaluated]
        generalize evalItems input apply (rest.map _) evaluated = outcome
        rcases outcome with ⟨_ | values, after⟩ <;> rfl

theorem eval_object (apply : Apply) (fields : List (String × Expr)) (state : State) :
    eval input apply (.object fields) state =
      ((evalItems input apply (fields.map (·.2)) state).1.map fun values =>
          .object (Entries.ofList ((fields.map (·.1)).zip values)),
        (evalItems input apply (fields.map (·.2)) state).2) := by
  rw [eval, evalFields_eq]
  generalize evalItems input apply (fields.map _) state = outcome
  rcases outcome with ⟨_ | values, after⟩ <;> rfl

theorem IsSimple.eval_eq {expr : Expr} (h : expr.IsSimple) (first second : Apply) (state : State) :
    eval input second expr state = ((eval input first expr state).1, state) := by
  cases expr with
  | array items | object fields | apply map => exact h.elim
  | literal value | throw message => rfl
  | document path | var name | content =>
      simp only [eval]
      split <;> rfl
  | metadata key =>
      simp only [eval]
      split
      · rfl
      · split <;> rfl

/-- Applying a map that is there runs its statements one level deeper. -/
theorem applyMap_succ {name : String} {body : List (Statement Expr)}
    (hmap : maps.get? name = some body) (room : Nat) (state : State) :
    applyMap maps input (room + 1) name state =
      (resultOf name (runFrom (eval input (applyMap maps input room)) input.index none body
          state.enter).1,
        (runFrom (eval input (applyMap maps input room)) input.index none body
          state.enter).2.leave) := by
  obtain ⟨result, after, hrun⟩ : ∃ result after,
      runFrom (eval input (applyMap maps input room)) input.index none body state.enter =
        (result, after) := ⟨_, _, rfl⟩
  have hlanguage : runFrom (Language.eval input (applyMap maps input room)) input.index none body
      state.enter = (result, after) := hrun
  rw [applyMap, hrun]
  simp only [hmap, hlanguage]
  cases result <;> rfl

theorem applyMap_enter {name : String} {body : List (Statement Expr)} {state after : State}
    {result : Except RunError (Option Value)} (hmap : maps.get? name = some body)
    (hdepth : state.depth < maxApplyDepth)
    (hbody : runFrom (eval input (applyMap maps input state.enter.room)) input.index none body
      state.enter = (result, after)) :
    applyMap maps input state.room name state = (resultOf name result, after.leave) := by
  rw [State.room_enter hdepth, applyMap_succ hmap, hbody]

theorem applyMap_undefined {name : String} (hmap : maps.get? name = none) (room : Nat)
    (state : State) :
    applyMap maps input room name state = (.error (.undefinedMap name), state) := by
  cases room <;> simp only [applyMap, hmap]

theorem applyMap_limit {name : String} {body : List (Statement Expr)} {state : State}
    (hmap : maps.get? name = some body) (hdepth : maxApplyDepth ≤ state.depth) :
    applyMap maps input state.room name state = (.error (.recursionLimit name), state) := by
  have hroom : state.room = 0 := Nat.sub_eq_zero_of_le hdepth
  rw [hroom, applyMap]
  simp only [hmap]

mutual

/-- What a derivation says is what evaluation computes. -/
theorem Evaluates.eval_eq {expr : Expr} {state after : State} {trace : Trace}
    {result : Except QueryError Value} :
    Evaluates maps input expr state trace result after →
      eval input (applyMap maps input state.room) expr state = (result, after)
  | .simple found hsimple => hsimple.eval_eq found _ state
  | .array hitems => by rw [eval_array, hitems.evalItems_eq]
  | .object hfields => by rw [eval_object, hfields.evalItems_eq]
  | .undefinedMap hmap => applyMap_undefined hmap _ state
  | .recursionLimit hmap hdepth => applyMap_limit hmap hdepth
  | .apply hmap hdepth hbody => applyMap_enter hmap hdepth hbody.runFrom_eq

theorem EvaluatesAll.evalItems_eq {items : List Expr} {state after : State} {trace : Trace}
    {result : Except QueryError (List Value)} :
    EvaluatesAll maps input items state trace result after →
      evalItems input (applyMap maps input state.room) items state = (result, after)
  | .nil => by rw [evalItems]
  | .stop hitem => by
      simp only [evalItems, hitem.eval_eq]
  | @EvaluatesAll.cons _ _ item _ _ _ _ _ _ _ result hitem hrest => by
      have hfirst := hitem.eval_eq
      have hdepth := depth_eval maps input state.room item state
      rw [hfirst] at hdepth
      have hothers := hrest.evalItems_eq
      rw [State.room_eq hdepth] at hothers
      simp only [evalItems, hfirst, hothers]
      cases result <;> rfl

theorem Runs.runFrom_eq {output : Option Value} {statements : List (Statement Expr)}
    {state after : State} {trace : Trace} {result : Except RunError (Option Value)} :
    Runs maps input output statements state trace result after →
      runFrom (eval input (applyMap maps input state.room)) input.index output statements state =
        (result, after)
  | .nil => by rw [runFrom]
  | .query hquery => Statement.Fails.runFrom_cons (.query hquery.eval_eq) _
  | .batch hquery hpart => Statement.Fails.runFrom_cons (.batch hquery.eval_eq hpart) _
  | .assignment hquery hpart hplaces =>
      Statement.Fails.runFrom_cons (.assignment hquery.eval_eq hpart hplaces) _
  | @Runs.cons _ _ _ statement _ _ evaluated _ _ _ _ _ _ _ hquery hpart hplaces hrest => by
      have hvalue := hquery.eval_eq
      have hdepth := depth_eval maps input state.room statement.query state
      rw [hvalue] at hdepth
      have hothers := hrest.runFrom_eq
      have hroom : evaluated.room = state.room := State.room_eq hdepth
      rw [State.room_keep, hroom] at hothers
      simp only [runFrom, hvalue, hpart, hplaces]
      exact hothers

end

/-- Evaluating the expression in the state ends, with the outcome that evaluation with so much room
computes. -/
def EndsWithin (maps : Dictionary (List (Statement Expr))) (input : Input) (room : Nat)
    (expr : Expr) (state : State) : Prop :=
  ∃ trace, Evaluates maps input expr state trace
    (eval input (applyMap maps input room) expr state).1
    (eval input (applyMap maps input room) expr state).2

section

variable {room : Nat}

theorem IsSimple.endsWithin {expr : Expr} (h : expr.IsSimple) (state : State) :
    EndsWithin maps input room expr state := by
  rw [EndsWithin, h.eval_eq (applyMap maps input room) (applyMap maps input room) state]
  exact ⟨[], .simple _ h⟩

/-- Expressions in a list end one after the other, each with the room of the first. -/
theorem exists_evaluatesAll_cons {item : Expr} {rest : List Expr} {state : State}
    (hroom : state.room = room) (hitem : EndsWithin maps input room item state)
    (hrest : ∀ between : State, between.room = room →
      ∃ trace, EvaluatesAll maps input rest between trace
        (evalItems input (applyMap maps input room) rest between).1
        (evalItems input (applyMap maps input room) rest between).2) :
    ∃ trace, EvaluatesAll maps input (item :: rest) state trace
      (evalItems input (applyMap maps input room) (item :: rest) state).1
      (evalItems input (applyMap maps input room) (item :: rest) state).2 := by
  obtain ⟨first, hfirst⟩ := hitem
  have hdepth := depth_eval maps input room item state
  rw [evalItems]
  split
  · rename_i error after heq
    rw [heq] at hfirst
    exact ⟨first, .stop hfirst⟩
  · rename_i value between heq
    rw [heq] at hfirst hdepth
    obtain ⟨others, hothers⟩ := hrest between ((State.room_eq hdepth).trans hroom)
    have hcons := EvaluatesAll.cons hfirst hothers
    refine ⟨first ++ others, ?_⟩
    split <;> (rename_i hoccurs; rw [hoccurs] at hcons; exact hcons)

mutual

/-- If applying maps ends, so does evaluating expressions. -/
theorem endsWithin_of_apply
    (happly : ∀ (name : String) (state : State), state.room = room →
      EndsWithin maps input room (.apply name) state) :
    ∀ (expr : Expr) {state : State}, state.room = room → EndsWithin maps input room expr state
  | .literal _, state, _ | .throw _, state, _ | .document _, state, _ | .var _, state, _
  | .metadata _, state, _ | .content, state, _ => by
      apply IsSimple.endsWithin
      trivial
  | .array items, state, hroom => by
      obtain ⟨trace, htrace⟩ := exists_evaluatesAll_items happly items hroom
      rw [EndsWithin, eval_array]
      exact ⟨trace, .array htrace⟩
  | .object fields, state, hroom => by
      obtain ⟨trace, htrace⟩ := exists_evaluatesAll_fields happly fields hroom
      rw [EndsWithin, eval_object]
      exact ⟨trace, .object htrace⟩
  | .apply name, state, hroom => happly name state hroom

theorem exists_evaluatesAll_items
    (happly : ∀ (name : String) (state : State), state.room = room →
      EndsWithin maps input room (.apply name) state) :
    ∀ (items : List Expr) {state : State}, state.room = room →
      ∃ trace, EvaluatesAll maps input items state trace
        (evalItems input (applyMap maps input room) items state).1
        (evalItems input (applyMap maps input room) items state).2
  | [], _, _ => by
      rw [evalItems]
      exact ⟨[], .nil⟩
  | item :: rest, _, hroom =>
      exists_evaluatesAll_cons hroom (endsWithin_of_apply happly item hroom)
        fun _ => exists_evaluatesAll_items happly rest

theorem exists_evaluatesAll_fields
    (happly : ∀ (name : String) (state : State), state.room = room →
      EndsWithin maps input room (.apply name) state) :
    ∀ (fields : List (String × Expr)) {state : State}, state.room = room →
      ∃ trace, EvaluatesAll maps input (fields.map (·.2)) state trace
        (evalItems input (applyMap maps input room) (fields.map (·.2)) state).1
        (evalItems input (applyMap maps input room) (fields.map (·.2)) state).2
  | [], _, _ => by
      rw [List.map_nil, evalItems]
      exact ⟨[], .nil⟩
  | (_, field) :: rest, _, hroom =>
      exists_evaluatesAll_cons hroom (endsWithin_of_apply happly field hroom)
        fun _ => exists_evaluatesAll_fields happly rest

end

/-- If expressions end, so do statements. -/
theorem exists_runs_of_eval
    (heval : ∀ (expr : Expr) {state : State}, state.room = room →
      EndsWithin maps input room expr state)
    (statements : List (Statement Expr)) (output : Option Value) {state : State}
    (hroom : state.room = room) :
    ∃ trace, Runs maps input output statements state trace
      (runFrom (eval input (applyMap maps input room)) input.index output statements state).1
      (runFrom (eval input (applyMap maps input room)) input.index output statements state).2 := by
  induction statements generalizing output state with
  | nil =>
      rw [runFrom]
      exact ⟨[], .nil⟩
  | cons statement rest ih =>
      obtain ⟨first, hfirst⟩ := heval statement.query hroom
      have hdepth := depth_eval maps input room statement.query state
      rw [runFrom]
      split
      · rename_i error after heq
        rw [heq] at hfirst
        exact ⟨first, .query hfirst⟩
      · rename_i value evaluated heq
        rw [heq] at hfirst hdepth
        split
        · rename_i error hpart
          exact ⟨first, .batch hfirst hpart⟩
        · rename_i part hpart
          split
          · rename_i error hplaces
            exact ⟨first, .assignment hfirst hpart hplaces⟩
          · rename_i places hplaces
            have hkept : (evaluated.keep input.index places).room = room :=
              (State.room_eq hdepth).trans hroom
            obtain ⟨others, hothers⟩ := ih places.output hkept
            exact ⟨first ++ (statement, value) :: others, .cons hfirst hpart hplaces hothers⟩

/-- Applying a map ends: by induction on the room, which every level of maps makes smaller. -/
theorem endsWithin_apply (room : Nat) : ∀ (name : String) (state : State), state.room = room →
    EndsWithin maps input room (.apply name) state := by
  induction room with
  | zero =>
      intro name state hroom
      have hdepth : maxApplyDepth ≤ state.depth := Nat.le_of_sub_eq_zero hroom
      rw [EndsWithin, eval]
      cases hmap : maps.get? name with
      | none =>
          rw [applyMap_undefined hmap]
          exact ⟨[], .undefinedMap hmap⟩
      | some body =>
          rw [← hroom, applyMap_limit hmap hdepth]
          exact ⟨[], .recursionLimit hmap hdepth⟩
  | succ room ih =>
      intro name state hroom
      have hdepth : state.depth < maxApplyDepth := Nat.lt_of_sub_eq_succ hroom
      rw [EndsWithin, eval]
      cases hmap : maps.get? name with
      | none =>
          rw [applyMap_undefined hmap]
          exact ⟨[], .undefinedMap hmap⟩
      | some body =>
          have henter : state.enter.room = room := by
            have hlevel := State.room_enter hdepth
            omega
          obtain ⟨trace, htrace⟩ := exists_runs_of_eval (endsWithin_of_apply ih) body none henter
          rw [← hroom, applyMap_enter hmap hdepth (by rw [henter])]
          exact ⟨trace, .apply hmap hdepth htrace⟩

end

/-- A derivation says what evaluation computes, and there is one for every expression and state. -/
theorem exists_evaluates_iff {expr : Expr} {state after : State}
    {result : Except QueryError Value} :
    (∃ trace, Evaluates maps input expr state trace result after) ↔
      evaluate maps input expr state = (result, after) := by
  constructor
  · rintro ⟨trace, htrace⟩
    exact htrace.eval_eq
  · intro h
    have hends : EndsWithin maps input state.room expr state :=
      endsWithin_of_apply (endsWithin_apply state.room) expr rfl
    have heval : eval input (applyMap maps input state.room) expr state = (result, after) := h
    rwa [EndsWithin, heval] at hends

theorem exists_runs_iff {statements : List (Statement Expr)} {state after : State}
    {result : Except RunError (Option Value)} :
    (∃ trace, Runs maps input none statements state trace result after) ↔
      run maps input statements state = (result, after) := by
  constructor
  · rintro ⟨trace, htrace⟩
    exact htrace.runFrom_eq
  · intro h
    have hends : ∀ (expr : Expr) {between : State}, between.room = state.room →
        EndsWithin maps input state.room expr between :=
      endsWithin_of_apply (endsWithin_apply state.room)
    obtain ⟨trace, htrace⟩ := exists_runs_of_eval hends statements none rfl
    have hrun : runFrom (eval input (applyMap maps input state.room)) input.index none statements
        state = (result, after) := h
    rw [hrun] at htrace
    exact ⟨trace, htrace⟩

end Expr

end Remap
