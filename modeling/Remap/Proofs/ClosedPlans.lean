import Remap.Proofs.ApplyDepth

/-!
Closed plans.  That every map is defined that is applied, that references do not go too deep and
that every variable is bound before it is read can be seen from a plan without running it.  A run of
such a plan can still fail by what the mapping says and by what the message holds, and by nothing
else.
-/

namespace Remap

/-- No assignment unbinds a variable. -/
theorem Target.isSome_vars_of_assign {target : Target} {value : Value} {before after : Places}
    (h : target.assign value before = .ok after) {name : String}
    (hname : (before.vars.get? name).isSome = true) : (after.vars.get? name).isSome = true := by
  rcases Target.assign_cases h with ⟨other, -, rfl⟩ | ⟨key, -, rfl⟩ | ⟨fields, -, -, rfl⟩ |
    ⟨segments, written, -, -, rfl⟩
  · exact Dictionary.isSome_get?_insert hname other value
  · exact hname
  · exact hname
  · exact hname

/-- The part is there and these variables are bound. -/
structure State.Provides (index : Nat) (names : String → Prop) (state : State) : Prop where
  part : ∃ part, state.batch.get index = .ok part
  vars (name : String) : names name → (state.vars.get? name).isSome = true

/-- What a state provides, it provides to the end of a run. -/
theorem provides_runClosed (index : Nat) (names : String → Prop) :
    RunClosed index fun before after => before.Provides index names → after.Provides index names
    where
  refl _ := id
  trans first second := second ∘ first
  keep hpart hplaces h := by
    have hframed := (framed_runClosed index).keep hpart hplaces
    exact ⟨hframed.exists_get_eq_ok hpart,
      fun name hname => Target.isSome_vars_of_assign hplaces (h.vars name hname)⟩
  leave h hbefore := by
    obtain ⟨hpart, hvars⟩ := h ⟨hbefore.part, hbefore.vars⟩
    exact ⟨hpart, hvars⟩

section

variable {ε : Type} {eval : ε → State → Outcome QueryError Value} {index : Nat}
  {output reached : Option Value} {state between : State} {statements : List (Statement ε)}
  {values : List Value}

/-- Statements that succeed bind the variables that they assign. -/
theorem Completes.provides
    (heval : ∀ (names : String → Prop) (query : ε) (state : State),
      state.Provides index names → (eval query state).2.Provides index names)
    (h : Completes eval index output state statements values reached between)
    (hpart : ∃ part, state.batch.get index = .ok part) :
    between.Provides index fun name => ∃ earlier ∈ statements, earlier.target = .var name := by
  induction h with
  | nil => exact ⟨hpart, by simp⟩
  | @cons _ _ _ evaluated _ value part places statement rest _ _ hfound hplaces hrest ih =>
      have hkept : ∃ part, (evaluated.keep index places).batch.get index = .ok part :=
        ((framed_runClosed index).keep hfound hplaces).exists_get_eq_ok hfound
      refine ⟨(ih hkept).part, fun name hname => ?_⟩
      obtain ⟨earlier, hearlier, htarget⟩ := hname
      rcases List.mem_cons.mp hearlier with rfl | hlater
      · -- The variable is bound here, and no later statement unbinds it.
        have hbound : (evaluated.keep index places).Provides index (· = name) := by
          refine ⟨hkept, ?_⟩
          rintro other rfl
          rw [htarget] at hplaces
          cases hplaces
          simp [State.keep]
        exact (hrest.related (provides_runClosed index (· = name)) (heval (· = name)) hbound).vars
          name rfl
      · exact (ih hkept).vars name ⟨earlier, hlater, htarget⟩

end

/-- The causes that cannot be seen from a plan, and the limit of applied maps. -/
inductive RootCause.Remains (document : Option Value) : RootCause → Prop
  | thrown (message : String) : Remains document (.thrown message)
  | noDocument : document = none → Remains document .noDocument
  | notAnObject (found : String) : Remains document (.notAnObject found)
  | path (error : PathError) : Remains document (.path error)
  | recursionLimit (map : String) : Remains document (.recursionLimit map)

section

variable {maps : Dictionary (List (Statement Expr))} {input : Input} {names : String → Prop}

/-- A statement that reads bound variables and applies maps that fail for the remaining causes only
fails for these only. -/
theorem Statement.Fails.remains {apply : Apply}
    {statement : Statement Expr} {output : Option Value} {state after : State} {error : RunError}
    (happlied : ∀ map ∈ statement.query.applied, ∀ {state error after},
      state.Provides input.index names → apply map state = (.error error, after) →
        error.root.Remains input.document)
    (hkept : ∀ map state, state.Provides input.index names →
      (apply map state).2.Provides input.index names)
    (hreads : ∀ name ∈ statement.query.reads, names name)
    (hstate : state.Provides input.index names)
    (h : statement.Fails (Expr.eval input apply) input.index output state error after) :
    error.root.Remains input.document := by
  have closed := provides_runClosed input.index names
  have heval : state.Provides input.index names →
      (Expr.eval input apply statement.query state).2.Provides input.index names :=
    Expr.eval_related closed.toChained hkept statement.query state
  cases h with
  | query hquery =>
      obtain ⟨between, hbetween, hfault⟩ :=
        Expr.exists_fault closed.toChained hkept statement.query hquery
      have hprovides := hbetween hstate
      cases hfault with
      | noDocument hdocument => exact .noDocument hdocument
      | undefinedVar hname hvar =>
          have hbound := hprovides.vars _ (hreads _ hname)
          rw [hvar] at hbound
          cases hbound
      | thrown message => exact .thrown message
      | batch hgone =>
          obtain ⟨part, hpart⟩ := hprovides.part
          rw [hpart] at hgone
          cases hgone
      | apply hmap hfails => exact happlied _ hmap hprovides hfails
  | batch hquery hgone =>
      rw [hquery] at heval
      obtain ⟨part, hpart⟩ := (heval hstate).part
      rw [hpart] at hgone
      cases hgone
  | @assignment _ _ cause _ _ _ _ =>
      cases cause with
      | notAnObject found => exact .notAnObject found
      | path error => exact .path error

/-- A defined map fails for the remaining causes only, if all that it leads to is defined and reads
bound variables: by induction on the room. -/
theorem applyMap_remains
    (hdefined : ∀ map body, maps.get? map = some body →
      ∀ name ∈ appliedIn body, (maps.get? name).isSome = true)
    {room : Nat} {name : String} {state after : State} {error : QueryError}
    (hname : (maps.get? name).isSome = true)
    (hreads : ∀ inner, ReachedFrom maps [name] inner → ∀ var ∈ inner.query.reads, names var)
    (hstate : state.Provides input.index names)
    (h : applyMap maps input room name state = (.error error, after)) :
    error.root.Remains input.document := by
  have closed := provides_runClosed input.index names
  induction room generalizing name state after error with
  | zero =>
      rw [applyMap] at h
      split at h <;> cases h
      · rename_i hnone
        rw [hnone] at hname
        cases hname
      · exact .recursionLimit name
  | succ room ih =>
      rw [applyMap] at h
      split at h
      · rename_i hnone
        rw [hnone] at hname
        cases hname
      · rename_i body hmap
        split at h <;> cases h
        rename_i cause left hrun
        obtain ⟨before, statement, rest, values, reached, between, rfl, hbefore, hfails⟩ :=
          runFrom_eq_error_iff.mp hrun
        have hmem : statement ∈ before ++ statement :: rest :=
          List.mem_append_right before List.mem_cons_self
        have hkept : ∀ map state, state.Provides input.index names →
            (applyMap maps input room map state).2.Provides input.index names :=
          closed.applyMap room
        have hbetween : between.Provides input.index names :=
          hbefore.related closed (closed.evalQuery maps room) ⟨hstate.part, hstate.vars⟩
        refine hfails.remains ?_ hkept (hreads statement (.of_mem hmap hmem)) hbetween
        intro map happlied state error after hprovides herror
        refine ih (hdefined name _ hmap map (mem_appliedIn hmem happlied)) ?_ hprovides herror
        intro inner hinner
        refine hreads inner (.of_applied hmap (hinner.mono ?_))
        simpa using mem_appliedIn hmem happlied

end

namespace Plan

/-- A plan is closed: every map that is applied is defined, no chain of references enters more maps
than the limit allows, and every variable is assigned at the top level before a statement there
reads it or comes to a map that does. -/
structure Closed (plan : Plan Expr) : Prop where
  applied : ∀ name ∈ appliedIn plan.statements, (plan.maps.get? name).isSome = true
  defined : ∀ map body, plan.maps.get? map = some body →
    ∀ name ∈ appliedIn body, (plan.maps.get? name).isSome = true
  chains : ∀ names, ReferenceChain plan.maps (appliedIn plan.statements) names →
    names.length ≤ maxApplyDepth
  bound : ∀ before statement after, plan.statements = before ++ statement :: after →
    ∀ inner, inner = statement ∨ ReachedFrom plan.maps statement.query.applied inner →
      ∀ name ∈ inner.query.reads, ∃ earlier ∈ before, earlier.target = .var name

variable {plan : Plan Expr} {part : Part} {index : Nat} {batch : Batch} {error : RunError}

/-- A chain up to the limit is longer than the chains of a closed plan. -/
theorem Closed.ne_recursionLimit (hclosed : plan.Closed) (hpart : batch.get index = .ok part)
    (herror : (plan.mapPart index batch).1 = .error error) (map : String) :
    error.root ≠ .recursionLimit map := by
  intro hroot
  obtain ⟨before, statement, rest, values, reached, between, after, hsplit, hbefore, hfails⟩ :=
    exists_fails_of_error hpart herror
  have hrun : plan.execPart part index batch = (.error error, after) :=
    runFrom_eq_error_iff.mpr
      ⟨before, statement, rest, values, reached, between, hsplit, hbefore, hfails⟩
  have hwithin : FailsWithin plan.maps maxApplyDepth (appliedIn plan.statements) error.root
      error.layers := runFrom_failsWithin (fun h => eval_failsWithin applyMap_failsWithin h) hrun
  obtain ⟨hlength, hchain⟩ := hwithin.limit map hroot
  have hle := hclosed.chains _ hchain
  rw [List.length_append, hlength] at hle
  exact Nat.not_succ_le_self maxApplyDepth hle

theorem Closed.remains (hclosed : plan.Closed) (hpart : batch.get index = .ok part)
    (herror : (plan.mapPart index batch).1 = .error error) :
    error.root.Remains part.document? := by
  obtain ⟨before, statement, rest, values, reached, between, after, hsplit, hbefore, hfails⟩ :=
    exists_fails_of_error hpart herror
  have closed (names : String → Prop) : RunClosed (Input.mk part.document? index).index
      fun before after => before.Provides index names → after.Provides index names :=
    provides_runClosed index names
  have hbetween := hbefore.provides
    (fun names => (closed names).evalQuery plan.maps maxApplyDepth) ⟨part, hpart⟩
  have hreads := hclosed.bound before statement rest hsplit
  have hfailsAt : statement.Fails (Expr.eval ⟨part.document?, index⟩
      (applyMap plan.maps ⟨part.document?, index⟩ maxApplyDepth)) index reached between error
      after := hfails
  refine hfailsAt.remains ?_ ((closed _).applyMap maxApplyDepth) (hreads statement (.inl rfl))
    hbetween
  intro map hmap state error after hstate herror
  have hmem : statement ∈ plan.statements := by simp [hsplit]
  refine applyMap_remains hclosed.defined (hclosed.applied map (mem_appliedIn hmem hmap)) ?_ hstate
    herror
  intro inner hinner
  exact hreads inner (.inr (hinner.mono (by simpa using hmap)))

/-- A mapping of a part that is there by a closed plan can fail by a `throw`, by reading a document
that is not there, by merging something that is no object into the metadata and by a path that
cannot be set.  Undefined maps and variables, the limit of applied maps and missing parts are out of
the question. -/
theorem mapPart_of_closed (plan : Plan Expr) (hclosed : plan.Closed) (index : Nat) (batch : Batch)
    (part : Part) (hpart : batch.get index = .ok part) (error : RunError)
    (herror : (plan.mapPart index batch).1 = .error error) :
    (∃ message, error.root = .thrown message) ∨
    (error.root = .noDocument ∧ part.document? = none) ∨
    (∃ found, error.root = .notAnObject found) ∨
    ∃ cause, error.root = .path cause := by
  have hlimit := hclosed.ne_recursionLimit hpart herror
  have hremains := hclosed.remains hpart herror
  cases hroot : error.root with
  | thrown message => exact .inl ⟨message, rfl⟩
  | notAnObject found => exact .inr (.inr (.inl ⟨found, rfl⟩))
  | path cause => exact .inr (.inr (.inr ⟨cause, rfl⟩))
  | recursionLimit map => exact absurd hroot (hlimit map)
  | noDocument =>
      rw [hroot] at hremains
      cases hremains with
      | noDocument hdocument => exact .inr (.inl ⟨rfl, hdocument⟩)
  | undefinedVar _ | undefinedMap _ | batch _ =>
      rw [hroot] at hremains
      cases hremains

/-- A variable is bound before a map comes to another one that reads it. -/
def greeting : Plan Expr where
  maps := .ofList [("outer", [⟨2, .path ["texts"], .array [.literal .null, .apply "inner"]⟩]),
    ("inner", [⟨5, .path ["text"], .var "name"⟩, ⟨6, .path ["to"], .document ["who"]⟩])]
  statements := [⟨8, .var "name", .content⟩, ⟨9, .path ["a"], .apply "outer"⟩]

theorem greeting_map_iff {name : String} {body : List (Statement Expr)} :
    greeting.maps.get? name = some body ↔
      name = "outer" ∧ body = [⟨2, .path ["texts"], .array [.literal .null, .apply "inner"]⟩] ∨
      name = "inner" ∧
        body = [⟨5, .path ["text"], .var "name"⟩, ⟨6, .path ["to"], .document ["who"]⟩] := by
  rw [greeting, Dictionary.get?_ofList (by simp)]
  simp

theorem greeting_refers_iff {first second : String} :
    Refers greeting.maps first second ↔ first = "outer" ∧ second = "inner" := by
  constructor
  · rintro ⟨body, hbody, hsecond⟩
    rcases greeting_map_iff.mp hbody with ⟨rfl, rfl⟩ | ⟨rfl, rfl⟩
    · exact ⟨rfl, by simpa [appliedIn, Expr.applied, Expr.appliedItems] using hsecond⟩
    · simp [appliedIn, Expr.applied] at hsecond
  · rintro ⟨rfl, rfl⟩
    exact ⟨_, greeting_map_iff.mpr (.inl ⟨rfl, rfl⟩), List.mem_cons_self⟩

/-- The only variable that is read anywhere. -/
theorem greeting_reads {statement inner : Statement Expr}
    (hstatement : statement ∈ greeting.statements)
    (hinner : inner = statement ∨ ReachedFrom greeting.maps statement.query.applied inner)
    {name : String} (hname : name ∈ inner.query.reads) : name = "name" := by
  rcases hinner with rfl | ⟨first, hfirst, map, body, hlinks, hbody, hinner⟩
  · simp only [greeting, List.mem_cons, List.not_mem_nil, or_false] at hstatement
    rcases hstatement with rfl | rfl <;> simp [Expr.reads] at hname
  · rcases greeting_map_iff.mp hbody with ⟨-, rfl⟩ | ⟨-, rfl⟩
    · rw [List.mem_singleton.mp hinner] at hname
      simp [Expr.reads, Expr.readsItems] at hname
    · simp only [List.mem_cons, List.not_mem_nil, or_false] at hinner
      rcases hinner with rfl | rfl
      · exact List.mem_singleton.mp hname
      · simp [Expr.reads] at hname

theorem greeting_closed : greeting.Closed where
  applied name hname := by
    have houter : name = "outer" := by
      simpa [greeting, appliedIn, Expr.applied] using hname
    subst houter
    rfl
  defined map body hmap name hname := by
    obtain ⟨-, rfl⟩ := greeting_refers_iff.mp ⟨body, hmap, hname⟩
    rfl
  chains names hchain := by
    rcases names with _ | ⟨first, _ | ⟨second, _ | ⟨third, rest⟩⟩⟩
    · exact Nat.zero_le _
    · simp [maxApplyDepth]
    · simp [maxApplyDepth]
    · obtain ⟨hfirst, hrest⟩ := List.isChain_cons_cons.mp hchain.links
      obtain ⟨hsecond, -⟩ := List.isChain_cons_cons.mp hrest
      have hinner := (greeting_refers_iff.mp hfirst).2
      have houter := (greeting_refers_iff.mp hsecond).1
      rw [hinner] at houter
      simp at houter
  bound before statement after hsplit inner hinner name hname := by
    have hstatement : statement ∈ greeting.statements := by simp [hsplit]
    have hread := greeting_reads hstatement hinner hname
    cases before with
    | nil =>
        -- The first statement reads nothing.
        cases hsplit
        rcases hinner with rfl | ⟨first, hfirst, -⟩
        · simp [Expr.reads] at hname
        · simp [Expr.applied] at hfirst
    | cons earlier others =>
        obtain ⟨rfl, -⟩ := List.cons.inj hsplit
        exact ⟨_, List.mem_cons_self, congrArg Target.var hread.symm⟩

theorem mapPart_of_closed_greeting :
    greeting.Closed ∧ Batch.get (.ofContents [[65]]) 0 = .ok (.ofContent [65]) ∧
    (greeting.mapPart 0 (.ofContents [[65]])).1 =
      .error (.query 9 (.apply "outer" (.query 2 (.apply "inner" (.query 6 .noDocument))))) ∧
    (Part.ofContent [65]).document? = none := by
  refine ⟨greeting_closed, rfl, rfl, ?_⟩
  rcases mapPart_of_closed greeting greeting_closed 0 (.ofContents [[65]]) (.ofContent [65]) rfl
    (.query 9 (.apply "outer" (.query 2 (.apply "inner" (.query 6 .noDocument))))) rfl with
    ⟨_, hroot⟩ | ⟨-, hdocument⟩ | ⟨_, hroot⟩ | ⟨_, hroot⟩
  · cases hroot
  · exact hdocument
  · cases hroot
  · cases hroot

end Plan

end Remap
