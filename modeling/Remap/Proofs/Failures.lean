import Remap.Proofs.Commit

/-!
How runs fail.  A list of statements fails at the first statement that fails, after all statements
before it have succeeded; an expression fails because of something that it reads, or because a map
that it applies fails.  An error that comes through applied maps says through which ones, and has
one innermost cause.
-/

namespace Remap

variable {ε : Type}

/-- What went wrong at the bottom of an error. -/
inductive RootCause
  | noDocument
  | undefinedVar (name : String)
  | undefinedMap (name : String)
  | thrown (message : String)
  | recursionLimit (map : String)
  | batch (error : BatchError)
  | notAnObject (found : String)
  | path (error : PathError)
deriving DecidableEq

def AssignError.root : AssignError → RootCause
  | .notAnObject found => .notAnObject found
  | .path error => .path error

mutual

/-- The innermost cause of an error. -/
def QueryError.root : QueryError → RootCause
  | .noDocument => .noDocument
  | .undefinedVar name => .undefinedVar name
  | .undefinedMap name => .undefinedMap name
  | .thrown message => .thrown message
  | .batch error => .batch error
  | .recursionLimit map => .recursionLimit map
  | .apply _ cause => cause.root
  | .recoverable _ cause => cause.root

/-- The innermost cause of an error. -/
def RunError.root : RunError → RootCause
  | .query _ cause => cause.root
  | .assignment _ cause => cause.root
  | .batch error | .commit error => .batch error

end

mutual

/-- The applied maps that an error came through, the outermost first. -/
def QueryError.layers : QueryError → List String
  | .apply map cause => map :: cause.layers
  | .recoverable _ cause => cause.layers
  | _ => []

/-- The applied maps that an error came through, the outermost first. -/
def RunError.layers : RunError → List String
  | .query _ cause => cause.layers
  | _ => []

end

/-- A statement fails in a state: its expression has no value, its part is gone or its target does
not take the value.  The last state is the one that the expression leaves. -/
inductive Statement.Fails (eval : ε → State → Outcome QueryError Value) (index : Nat)
    (output : Option Value) (statement : Statement ε) (state : State) : RunError → State → Prop
  | query {cause : QueryError} {after : State} :
      eval statement.query state = (.error cause, after) →
      Fails eval index output statement state (.query statement.line cause) after
  | batch {value : Value} {cause : BatchError} {after : State} :
      eval statement.query state = (.ok value, after) →
      after.batch.get index = .error cause →
      Fails eval index output statement state (.batch cause) after
  | assignment {value : Value} {part : Part} {cause : AssignError} {after : State} :
      eval statement.query state = (.ok value, after) →
      after.batch.get index = .ok part →
      statement.target.assign value ⟨after.vars, part.metadata, output⟩ = .error cause →
      Fails eval index output statement state (.assignment statement.line cause) after

section

variable {eval : ε → State → Outcome QueryError Value} {index : Nat}
  {output reached : Option Value} {state between after : State} {error : RunError}
  {statement : Statement ε} {before : List (Statement ε)} {values : List Value}

/-- After statements that succeed the run goes on with the others. -/
theorem Completes.runFrom_append
    (h : Completes eval index output state before values reached between)
    (rest : List (Statement ε)) :
    runFrom eval index output (before ++ rest) state =
      runFrom eval index reached rest between := by
  induction h with
  | nil => rfl
  | cons hvalue hpart hplaces _ ih =>
      rw [List.cons_append, runFrom]
      simp only [hvalue, hpart, hplaces]
      exact ih

/-- A statement that fails leaves the state that its expression leaves. -/
theorem Statement.Fails.exists_query
    (h : Statement.Fails eval index output statement state error after) :
    ∃ result, eval statement.query state = (result, after) := by
  cases h with
  | query hquery | batch hquery _ | assignment hquery _ _ => exact ⟨_, hquery⟩

/-- Nothing after a statement that fails is run. -/
theorem Statement.Fails.runFrom_cons
    (h : Statement.Fails eval index output statement state error after)
    (rest : List (Statement ε)) :
    runFrom eval index output (statement :: rest) state = (.error error, after) := by
  rw [runFrom]
  cases h with
  | query hquery => simp only [hquery]
  | batch hquery hpart => simp only [hquery, hpart]
  | assignment hquery hpart hplaces => simp only [hquery, hpart, hplaces]

/-- A run fails where its first failing statement does. -/
theorem runFrom_eq_error_iff {statements : List (Statement ε)} :
    runFrom eval index output statements state = (.error error, after) ↔
      ∃ before statement rest values reached between,
        statements = before ++ statement :: rest ∧
        Completes eval index output state before values reached between ∧
        Statement.Fails eval index reached statement between error after := by
  constructor
  · intro h
    induction statements generalizing output state with
    | nil => cases h
    | cons statement rest ih =>
        rw [runFrom] at h
        split at h
        · rename_i cause evaluated hquery
          cases h
          exact ⟨[], statement, rest, [], output, state, rfl, .nil, .query hquery⟩
        · rename_i value evaluated hquery
          split at h
          · rename_i cause hpart
            cases h
            exact ⟨[], statement, rest, [], output, state, rfl, .nil, .batch hquery hpart⟩
          · rename_i part hpart
            split at h
            · rename_i cause hplaces
              cases h
              exact ⟨[], statement, rest, [], output, state, rfl, .nil,
                .assignment hquery hpart hplaces⟩
            · rename_i places hplaces
              obtain ⟨before, failing, later, values, reached, between, rfl, hbefore, hfails⟩ := ih h
              exact ⟨statement :: before, failing, later, value :: values, reached, between, rfl,
                .cons hquery hpart hplaces hbefore, hfails⟩
  · rintro ⟨before, statement, rest, values, reached, between, rfl, hbefore, hfails⟩
    rw [hbefore.runFrom_append]
    exact hfails.runFrom_cons rest

/-- Statements that succeed leave the state to which a closed relation leads. -/
theorem Completes.related {R : State → State → Prop} (closed : RunClosed index R)
    (heval : ∀ query state, R state (eval query state).2)
    (h : Completes eval index output state before values reached between) : R state between := by
  have hrun := closed.runFrom heval output before state
  rwa [runFrom_eq_ok_iff.mpr ⟨values, h⟩] at hrun

end

namespace Expr

mutual

/-- The variables that an expression reads, in the order of evaluation. -/
def reads : Expr → List String
  | .var name => [name]
  | .array items => readsItems items
  | .object fields => readsFields fields
  | _ => []

def readsItems : List Expr → List String
  | [] => []
  | item :: rest => item.reads ++ readsItems rest

def readsFields : List (String × Expr) → List String
  | [] => []
  | (_, field) :: rest => field.reads ++ readsFields rest

end

/-- Why evaluation stops in a state: something that is read there is not there, or one of the given
maps fails. -/
inductive Fault (input : Input) (apply : Apply) (applied reads : List String) (state : State) :
    QueryError → State → Prop
  | noDocument : input.document = none → Fault input apply applied reads state .noDocument state
  | undefinedVar {name : String} :
      name ∈ reads → state.vars.get? name = none →
      Fault input apply applied reads state (.undefinedVar name) state
  | thrown (message : String) : Fault input apply applied reads state (.thrown message) state
  | batch {error : BatchError} :
      state.batch.get input.index = .error error →
      Fault input apply applied reads state (.batch error) state
  | apply {map : String} {error : QueryError} {after : State} :
      map ∈ applied → apply map state = (.error error, after) →
      Fault input apply applied reads state error after

section

variable {R : State → State → Prop} {input : Input} {apply : Apply} {applied reads : List String}
  {state after : State} {error : QueryError}

theorem Fault.mono (h : Fault input apply applied reads state error after)
    {moreApplied moreReads : List String} (happlied : applied ⊆ moreApplied)
    (hreads : reads ⊆ moreReads) : Fault input apply moreApplied moreReads state error after := by
  cases h with
  | noDocument hdocument => exact .noDocument hdocument
  | undefinedVar hname hvar => exact .undefinedVar (hreads hname) hvar
  | thrown message => exact .thrown message
  | batch hpart => exact .batch hpart
  | apply hmap hfails => exact .apply (happlied hmap) hfails

mutual

/-- An expression that fails met a fault in a state that its evaluation came to. -/
theorem exists_fault (chained : Chained R) (happly : ∀ map state, R state (apply map state).2) :
    ∀ (expr : Expr) {state after : State} {error : QueryError},
      eval input apply expr state = (.error error, after) →
        ∃ between, R state between ∧
          Fault input apply expr.applied expr.reads between error after
  | .literal _, _, _, _, h => by
      rw [eval] at h
      cases h
  | .throw message, state, _, _, h => by
      rw [eval] at h
      cases h
      exact ⟨state, chained.refl state, .thrown message⟩
  | .array items, state, _, _, h => by
      rw [eval] at h
      split at h
      · cases h
      · rename_i heq
        cases h
        exact exists_fault_items chained happly items heq
  | .object fields, state, _, _, h => by
      rw [eval] at h
      split at h
      · cases h
      · rename_i heq
        cases h
        exact exists_fault_fields chained happly fields heq
  | .document _, state, _, _, h => by
      rw [eval] at h
      split at h
      · rename_i hdocument
        cases h
        exact ⟨state, chained.refl state, .noDocument hdocument⟩
      · cases h
  | .var name, state, _, _, h => by
      rw [eval] at h
      split at h
      · rename_i hvar
        cases h
        exact ⟨state, chained.refl state, .undefinedVar List.mem_cons_self hvar⟩
      · cases h
  | .metadata _, state, _, _, h => by
      rw [eval] at h
      split at h
      · rename_i hpart
        cases h
        exact ⟨state, chained.refl state, .batch hpart⟩
      · split at h <;> cases h
  | .content, state, _, _, h => by
      rw [eval] at h
      split at h
      · rename_i hpart
        cases h
        exact ⟨state, chained.refl state, .batch hpart⟩
      · cases h
  | .apply map, state, _, _, h => ⟨state, chained.refl state, .apply List.mem_cons_self h⟩

theorem exists_fault_items (chained : Chained R)
    (happly : ∀ map state, R state (apply map state).2) :
    ∀ (items : List Expr) {state after : State} {error : QueryError},
      evalItems input apply items state = (.error error, after) →
        ∃ between, R state between ∧
          Fault input apply (appliedItems items) (readsItems items) between error after
  | [], _, _, _, h => by
      rw [evalItems] at h
      cases h
  | item :: rest, state, _, _, h => by
      rw [evalItems] at h
      split at h
      · rename_i hitem
        cases h
        obtain ⟨between, hbetween, hfault⟩ := exists_fault chained happly item hitem
        exact ⟨between, hbetween, hfault.mono (List.subset_append_left _ _)
          (List.subset_append_left _ _)⟩
      · rename_i value evaluated hitem
        split at h
        · rename_i hrest
          cases h
          have hfirst : R state (eval input apply item state).2 :=
            eval_related chained happly item state
          rw [hitem] at hfirst
          obtain ⟨between, hbetween, hfault⟩ := exists_fault_items chained happly rest hrest
          exact ⟨between, chained.trans hfirst hbetween,
            hfault.mono (List.subset_append_right _ _) (List.subset_append_right _ _)⟩
        · cases h

theorem exists_fault_fields (chained : Chained R)
    (happly : ∀ map state, R state (apply map state).2) :
    ∀ (fields : List (String × Expr)) {state after : State} {error : QueryError},
      evalFields input apply fields state = (.error error, after) →
        ∃ between, R state between ∧
          Fault input apply (appliedFields fields) (readsFields fields) between error after
  | [], _, _, _, h => by
      rw [evalFields] at h
      cases h
  | (_, field) :: rest, state, _, _, h => by
      rw [evalFields] at h
      split at h
      · rename_i hfield
        cases h
        obtain ⟨between, hbetween, hfault⟩ := exists_fault chained happly field hfield
        exact ⟨between, hbetween, hfault.mono (List.subset_append_left _ _)
          (List.subset_append_left _ _)⟩
      · rename_i value evaluated hfield
        split at h
        · rename_i hrest
          cases h
          have hfirst : R state (eval input apply field state).2 :=
            eval_related chained happly field state
          rw [hfield] at hfirst
          obtain ⟨between, hbetween, hfault⟩ := exists_fault_fields chained happly rest hrest
          exact ⟨between, chained.trans hfirst hbetween,
            hfault.mono (List.subset_append_right _ _) (List.subset_append_right _ _)⟩
        · cases h

end

end

end Expr

namespace Plan

variable [Language ε] {plan : Plan ε} {part : Part} {index : Nat} {batch : Batch}
  {before rest : List (Statement ε)} {statement : Statement ε} {values : List Value}
  {reached : Option Value} {between after : State} {error : RunError}

/-- What a closed relation says about the evaluation that comes after statements that succeed. -/
theorem related_of_completes [InertLanguage ε] {R : State → State → Prop}
    (closed : RunClosed index R)
    (hbefore : Completes (plan.evalPart part index) index none (.start batch) before values reached
      between) {query : ε} {result : Except QueryError Value}
    (hquery : plan.evalPart part index query between = (result, after)) :
    R (.start batch) after := by
  have closedAt : RunClosed (Input.mk part.document? index).index R := closed
  have heval (query : ε) (state : State) : R state (plan.evalPart part index query state).2 :=
    closedAt.evalQuery plan.maps maxApplyDepth query state
  have hlast := heval query between
  rw [hquery] at hlast
  exact closed.trans (hbefore.related closed heval) hlast

/-- A mapping fails if one of its statements fails, after those before it have succeeded. -/
theorem mapPart_of_fails (hpart : batch.get index = .ok part)
    (hsplit : plan.statements = before ++ statement :: rest)
    (hbefore : Completes (plan.evalPart part index) index none (.start batch) before values reached
      between)
    (hfails : Statement.Fails (plan.evalPart part index) index reached statement between error
      after) : plan.mapPart index batch = (.error error, after.batch) :=
  mapPart_of_error hpart (runFrom_eq_error_iff.mpr
    ⟨before, statement, rest, values, reached, between, hsplit, hbefore, hfails⟩)

/-- A mapping of a part that is there fails in no other way. -/
theorem exists_fails_of_error [InertLanguage ε] (hpart : batch.get index = .ok part)
    (herror : (plan.mapPart index batch).1 = .error error) :
    ∃ before statement rest values reached between after,
      plan.statements = before ++ statement :: rest ∧
      Completes (plan.evalPart part index) index none (.start batch) before values reached
        between ∧
      Statement.Fails (plan.evalPart part index) index reached statement between error after := by
  cases hrun : plan.execPart part index batch with
  | mk result after =>
      cases result with
      | ok output =>
          rw [mapPart_eq_commit hpart (congrArg Prod.fst hrun)] at herror
          cases herror
      | error found =>
          rw [mapPart_of_error hpart hrun] at herror
          cases herror
          obtain ⟨before, statement, rest, values, reached, between, hfirst⟩ :=
            runFrom_eq_error_iff.mp hrun
          exact ⟨before, statement, rest, values, reached, between, after, hfirst⟩

end Plan

end Remap
