import Remap.Proofs.References

/-!
A mapping fails fast.  It stops at one statement: what comes after has no part in the outcome, and
what was written before stays written.  Of the statement itself only those writes stay that maps
made which its expression applied; they are the trace of its evaluation.
-/

namespace Remap

/-- The metadata of a part after a value has been written to a target. -/
def Target.writtenTo (target : Target) (value : Value) (metadata : Metadata) : Metadata :=
  match target, value with
  | .metadata (some key), value => metadata.insert key value.toText
  | .metadata none, .object fields => Places.mergeMetadata metadata fields
  | _, _ => metadata

theorem Target.metadata_of_assign {target : Target} {value : Value} {before after : Places}
    (h : target.assign value before = .ok after) :
    after.metadata = target.writtenTo value before.metadata := by
  rcases Target.assign_cases h with ⟨name, rfl, rfl⟩ | ⟨key, rfl, rfl⟩ | ⟨fields, rfl, rfl, rfl⟩ |
    ⟨segments, written, rfl, -, rfl⟩ <;> rfl

/-- The metadata of a part after all statements of a trace. -/
def Trace.writtenTo (trace : Trace) (metadata : Metadata) : Metadata :=
  trace.foldl (fun written entry => entry.1.target.writtenTo entry.2 written) metadata

/-- From one state to the other such statements were carried out, and the metadata of the part is
what they write onto what it was. -/
structure Trace.Leads (index : Nat) (such : Statement Expr → Prop) (trace : Trace)
    (before after : State) : Prop where
  entries : ∀ entry ∈ trace, such entry.1
  metadata {part : Part} : before.batch.get index = .ok part →
    ∃ later, after.batch.get index = .ok later ∧ later.metadata = trace.writtenTo part.metadata

namespace Trace.Leads

variable {index : Nat} {such : Statement Expr → Prop} {first others : Trace}
  {state between after : State}

theorem nil : Leads index such [] state state where
  entries := by simp
  metadata hpart := ⟨_, hpart, rfl⟩

theorem mono (h : Leads index such first state after) {more : Statement Expr → Prop}
    (hmore : ∀ statement, such statement → more statement) :
    Leads index more first state after where
  entries entry hentry := hmore entry.1 (h.entries entry hentry)
  metadata := h.metadata

theorem append (hfirst : Leads index such first state between)
    (hothers : Leads index such others between after) :
    Leads index such (first ++ others) state after where
  entries entry hentry := (List.mem_append.mp hentry).elim (hfirst.entries entry)
    (hothers.entries entry)
  metadata hpart := by
    obtain ⟨middle, hmiddle, hwritten⟩ := hfirst.metadata hpart
    obtain ⟨later, hlater, heq⟩ := hothers.metadata hmiddle
    refine ⟨later, hlater, ?_⟩
    rw [heq, hwritten, Trace.writtenTo, Trace.writtenTo, Trace.writtenTo, List.foldl_append]

/-- One assignment is a trace of one statement. -/
theorem keep {statement : Statement Expr} {value : Value} {part : Part} {output : Option Value}
    {places : Places} (hsuch : such statement) (hpart : state.batch.get index = .ok part)
    (hplaces : statement.target.assign value ⟨state.vars, part.metadata, output⟩ = .ok places) :
    Leads index such [(statement, value)] state (state.keep index places) where
  entries entry hentry := by
    rw [List.mem_singleton.mp hentry]
    exact hsuch
  metadata {found} hfound := by
    rw [hpart] at hfound
    cases hfound
    refine ⟨{ part with metadata := places.metadata }, ?_, Target.metadata_of_assign hplaces⟩
    rw [Batch.get_eq_ok_iff, State.keep, Batch.setMetadata, List.getElem?_modify_eq,
      Batch.get_eq_ok_iff.mp hpart]
    rfl

end Trace.Leads

namespace Expr

variable {maps : Dictionary (List (Statement Expr))} {input : Input}

theorem appliedItems_map_snd (fields : List (String × Expr)) :
    appliedItems (fields.map (·.2)) = appliedFields fields := by
  induction fields with
  | nil => rfl
  | cons field rest ih => rw [List.map_cons, appliedItems, appliedFields, ih]

mutual

/-- An expression writes what the statements write that the maps carry out which it applies, and
these stand in maps that can be reached from it. -/
theorem Evaluates.leads {expr : Expr} {state after : State} {trace : Trace}
    {result : Except QueryError Value} :
    Evaluates maps input expr state trace result after →
      trace.Leads input.index (ReachedFrom maps expr.applied) state after
  | .simple _ _ | .undefinedMap _ | .recursionLimit _ _ => .nil
  | .array hitems => hitems.leads
  | .object hfields => by
      have hleads := hfields.leads
      rwa [appliedItems_map_snd] at hleads
  | .apply hmap _ hbody => by
      have hleads := hbody.leads
      refine ⟨fun entry hentry => ?_, hleads.metadata⟩
      rcases hleads.entries entry hentry with hown | hinner
      · exact .of_mem hmap hown
      · exact .of_applied hmap hinner

theorem EvaluatesAll.leads {items : List Expr} {state after : State} {trace : Trace}
    {result : Except QueryError (List Value)} :
    EvaluatesAll maps input items state trace result after →
      trace.Leads input.index (ReachedFrom maps (appliedItems items)) state after
  | .nil => .nil
  | .stop hitem => hitem.leads.mono fun _ h => h.mono (List.subset_append_left _ _)
  | .cons hitem hrest =>
      (hitem.leads.mono fun _ h => h.mono (List.subset_append_left _ _)).append
        (hrest.leads.mono fun _ h => h.mono (List.subset_append_right _ _))

theorem Runs.leads {output : Option Value} {statements : List (Statement Expr)}
    {state after : State} {trace : Trace} {result : Except RunError (Option Value)} :
    Runs maps input output statements state trace result after →
      trace.Leads input.index
        (fun statement => statement ∈ statements ∨ ReachedFrom maps (appliedIn statements) statement)
        state after
  | .nil => .nil
  | .query hquery | .batch hquery _ | .assignment hquery _ _ =>
      hquery.leads.mono fun _ h => .inr (h.mono fun _ => mem_appliedIn List.mem_cons_self)
  | .cons hquery hpart hplaces hrest => by
      have hfirst := hquery.leads
      have hothers := hrest.leads
      refine (hfirst.mono fun _ h => ?_).append
        ((Trace.Leads.keep ?_ hpart hplaces).append (hothers.mono fun _ h => ?_))
      · exact .inr (h.mono fun _ => mem_appliedIn List.mem_cons_self)
      · exact .inl List.mem_cons_self
      · rcases h with hown | hinner
        · exact .inl (List.mem_cons_of_mem _ hown)
        · exact .inr (hinner.mono (List.subset_append_right _ _))

end

end Expr

namespace Plan

section

variable {ε : Type}

/-- The plan without the statements after the first `count`. -/
def upTo (plan : Plan ε) (count : Nat) : Plan ε :=
  { plan with statements := plan.statements.take count }

theorem upTo_eq {plan : Plan ε} {before rest : List (Statement ε)} {statement : Statement ε}
    (hsplit : plan.statements = before ++ statement :: rest) :
    plan.upTo before.length = { plan with statements := before } := by
  rw [upTo, hsplit, List.take_left']
  rfl

variable [Language ε]

/-- The error is that of the statement at this position: all statements before it succeed, it gives
the error its line, and whatever comes after it the outcome is the same. -/
structure StopsAt (plan : Plan ε) (part : Part) (index : Nat) (batch : Batch) (error : RunError)
    (position : Nat) : Prop where
  succeeds : ∃ values, (plan.upTo position).Succeeds part index batch values
  line : ∃ statement, plan.statements[position]? = some statement ∧
    ((∃ cause, error = .query statement.line cause) ∨
      ∃ cause, error = .assignment statement.line cause)
  others (others : List (Statement ε)) :
    mapPart { plan with statements := plan.statements.take (position + 1) ++ others } index batch =
      plan.mapPart index batch

variable {plan : Plan ε} {part : Part} {index : Nat} {batch : Batch}
  {error : RunError} {before rest : List (Statement ε)} {statement : Statement ε}
  {values : List Value} {reached : Option Value} {between after : State}

/-- The plan up to a statement leaves the state in which that statement is run. -/
theorem execPart_upTo (hsplit : plan.statements = before ++ statement :: rest)
    (hbefore : Completes (plan.evalPart part index) index none (.start batch) before values reached
      between) :
    (plan.upTo before.length).execPart part index batch = (.ok reached, between) := by
  rw [upTo_eq hsplit]
  exact execPart_eq_ok_iff.mpr ⟨values, hbefore⟩

variable [InertLanguage ε]

theorem mapPart_of_succeeds (hpart : batch.get index = .ok part)
    (h : plan.Succeeds part index batch values) : (plan.mapPart index batch).1 = .ok () := by
  obtain ⟨final, after, hcompletes⟩ := h
  have hrun := execPart_eq_ok_iff.mpr ⟨values, hcompletes⟩
  rw [mapPart_eq_commit hpart (congrArg Prod.fst hrun)]

/-- A plan does not stop before statements that succeed. -/
theorem StopsAt.not_lt {position later : Nat} (hpart : batch.get index = .ok part)
    (herror : (plan.mapPart index batch).1 = .error error)
    (h : plan.StopsAt part index batch error position)
    (hlater : ∃ values, (plan.upTo later).Succeeds part index batch values) :
    ¬ position < later := by
  intro hlt
  obtain ⟨values, hvalues⟩ := hlater
  have hsplit : plan.statements.take (position + 1) ++
      (plan.statements.take later).drop (position + 1) = plan.statements.take later := by
    have hwhole := List.take_append_drop (position + 1) (plan.statements.take later)
    rwa [List.take_take, Nat.min_eq_left hlt] at hwhole
  have hsame := h.others ((plan.statements.take later).drop (position + 1))
  rw [hsplit] at hsame
  have hok : (plan.mapPart index batch).1 = .ok () := by
    rw [← hsame]
    exact mapPart_of_succeeds hpart hvalues
  rw [hok] at herror
  cases herror

theorem StopsAt.unique {first second : Nat} (hpart : batch.get index = .ok part)
    (herror : (plan.mapPart index batch).1 = .error error)
    (hfirst : plan.StopsAt part index batch error first)
    (hsecond : plan.StopsAt part index batch error second) : first = second := by
  have hle := hfirst.not_lt hpart herror hsecond.succeeds
  have hge := hsecond.not_lt hpart herror hfirst.succeeds
  omega

/-- A plan stops at its first statement that fails. -/
theorem stopsAt_of_fails (hpart : batch.get index = .ok part)
    (hsplit : plan.statements = before ++ statement :: rest)
    (hbefore : Completes (plan.evalPart part index) index none (.start batch) before values reached
      between)
    (hfails : Statement.Fails (plan.evalPart part index) index reached statement between error
      after) : plan.StopsAt part index batch error before.length where
  succeeds := by
    rw [upTo_eq hsplit]
    exact ⟨values, reached, between, hbefore⟩
  line := by
    refine ⟨statement, by simp [hsplit], ?_⟩
    cases hfails with
    | query _ => exact .inl ⟨_, rfl⟩
    | assignment _ _ _ => exact .inr ⟨_, rfl⟩
    | batch hquery hgone =>
        -- No run takes its own part out of the batch.
        have hframed : Batch.Framed index batch after.batch :=
          related_of_completes (framed_runClosed index) hbefore hquery
        obtain ⟨later, hlater⟩ := hframed.exists_get_eq_ok hpart
        rw [hlater] at hgone
        cases hgone
  others others := by
    have htake : plan.statements.take (before.length + 1) = before ++ [statement] := by
      rw [hsplit, List.append_cons, List.take_left' (by simp)]
    rw [mapPart_of_fails hpart hsplit hbefore hfails, htake, ← List.append_cons]
    exact mapPart_of_fails hpart rfl hbefore hfails

end

variable {plan : Plan Expr} {part : Part} {index : Nat} {batch : Batch}
  {before rest : List (Statement Expr)} {statement : Statement Expr} {values : List Value}
  {reached : Option Value} {between after : State}

/-- After statements that succeed the next expression has a derivation. -/
theorem exists_evaluates_of_completes
    (hbefore : Completes (plan.evalPart part index) index none (.start batch) before values reached
      between) {query : Expr} {result : Except QueryError Value}
    (hquery : plan.evalPart part index query between = (result, after)) :
    ∃ trace, query.Evaluates plan.maps ⟨part.document?, index⟩ between trace result after := by
  have hdepth : between.depth = (State.start batch).depth :=
    hbefore.related (depth_runClosed index)
      fun query state => Expr.depth_eval plan.maps ⟨part.document?, index⟩ maxApplyDepth query state
  have hroom : between.room = maxApplyDepth := State.room_eq hdepth
  refine Expr.exists_evaluates_iff.mpr ?_
  rw [evaluate, hroom]
  exact hquery

/-- The metadata that statements leave that succeed does not change by their commit. -/
theorem exists_left_of_completes (hpart : batch.get index = .ok part)
    (hsplit : plan.statements = before ++ statement :: rest)
    (hbefore : Completes (plan.evalPart part index) index none (.start batch) before values reached
      between) :
    ∃ middle left, between.batch.get index = .ok middle ∧
      ((plan.upTo before.length).mapPart index batch).2.parts[index]? = some left ∧
      left.metadata = middle.metadata := by
  have hrun := execPart_upTo hsplit hbefore
  have hframed := (plan.upTo before.length).execPart_framed part index batch
  rw [hrun] at hframed
  obtain ⟨middle, hmiddle⟩ := hframed.exists_get_eq_ok hpart
  have hmetadata := congrArg (·[index]?) (Batch.map_metadata_commit between.batch index reached)
  simp only [List.getElem?_map, Batch.get_eq_ok_iff.mp hmiddle, Option.map_some,
    Option.map_eq_some_iff] at hmetadata
  obtain ⟨left, hleft, heq⟩ := hmetadata
  refine ⟨middle, left, hmiddle, ?_, heq⟩
  rw [mapPart_eq_commit hpart (congrArg Prod.fst hrun), hrun]
  exact hleft

/-- A mapping that fails stops at exactly one of its statements.  The metadata that it leaves is
what the statements before that one leave, with what the maps have written that the expression of
that one applied: the statements of the trace of its evaluation, all of which stand in maps to which
references lead from the expression.  An expression that applies no map leaves the metadata alone. -/
theorem mapPart_stops_at_one_statement (plan : Plan Expr) (index : Nat) (batch : Batch)
    (part : Part) (hpart : batch.get index = .ok part) (error : RunError)
    (herror : (plan.mapPart index batch).1 = .error error) :
    ∃ position statement, plan.statements[position]? = some statement ∧
      plan.StopsAt part index batch error position ∧
      (∀ other, plan.StopsAt part index batch error other → other = position) ∧
      ∃ trace result after left later,
        statement.query.Evaluates plan.maps ⟨part.document?, index⟩
          ((plan.upTo position).execPart part index batch).2 trace result after ∧
        (∀ entry ∈ trace, ReachedFrom plan.maps statement.query.applied entry.1) ∧
        ((plan.upTo position).mapPart index batch).2.parts[index]? = some left ∧
        (plan.mapPart index batch).2.parts[index]? = some later ∧
        later.metadata = trace.writtenTo left.metadata ∧
        (statement.query.applied = [] → later.metadata = left.metadata) := by
  obtain ⟨before, statement, rest, values, reached, between, after, hsplit, hbefore, hfails⟩ :=
    exists_fails_of_error hpart herror
  have hstops := stopsAt_of_fails hpart hsplit hbefore hfails
  refine ⟨before.length, statement, by simp [hsplit], hstops,
    fun other hother => hother.unique hpart herror hstops, ?_⟩
  obtain ⟨result, hquery⟩ := hfails.exists_query
  obtain ⟨trace, htrace⟩ := exists_evaluates_of_completes hbefore hquery
  have hleads := htrace.leads
  obtain ⟨middle, left, hmiddle, hleft, heq⟩ := exists_left_of_completes hpart hsplit hbefore
  obtain ⟨later, hlater, hwritten⟩ := hleads.metadata hmiddle
  rw [← heq] at hwritten
  refine ⟨trace, result, after, left, later, ?_, hleads.entries, hleft, ?_, hwritten, ?_⟩
  · rw [execPart_upTo hsplit hbefore]
    exact htrace
  · rw [mapPart_of_fails hpart hsplit hbefore hfails]
    exact Batch.get_eq_ok_iff.mp hlater
  · intro hnone
    have hempty : trace = [] := List.eq_nil_iff_forall_not_mem.mpr fun entry hentry => by
      obtain ⟨first, hfirst, -⟩ := hleads.entries entry hentry
      rw [hnone] at hfirst
      cases hfirst
    rw [hwritten, hempty]
    rfl

/-- Metadata is written at the top level, in a map and in a map that this one applies before it
fails. -/
def writesThenFails : Plan Expr where
  maps := .ofList [
    ("outer", [⟨2, .metadata (some "outer"), .content⟩, ⟨3, .path [], .apply "inner"⟩]),
    ("inner", [⟨6, .metadata (some "inner"), .content⟩, ⟨7, .path [], .throw "no"⟩])]
  statements := [⟨9, .metadata (some "first"), .content⟩,
    ⟨10, .path ["a"], .array [.apply "outer", .content]⟩, ⟨11, .metadata (some "never"), .content⟩]

theorem mapPart_stops_at_one_statement_of_writesThenFails :
    Batch.get (.ofContents [[65]]) 0 = .ok (.ofContent [65]) ∧
    (writesThenFails.mapPart 0 (.ofContents [[65]])).1 =
      .error (.query 10 (.apply "outer" (.query 3 (.apply "inner" (.query 7 (.thrown "no")))))) ∧
    ((writesThenFails.mapPart 0 (.ofContents [[65]])).2.parts[0]?).map Part.metadata =
      some (.ofList [("first", "A"), ("inner", "A"), ("outer", "A")]) ∧
    ∃ position statement, writesThenFails.statements[position]? = some statement ∧
      statement.line = 10 ∧
      ∀ other, writesThenFails.StopsAt (.ofContent [65]) 0 (.ofContents [[65]])
        (.query 10 (.apply "outer" (.query 3 (.apply "inner" (.query 7 (.thrown "no")))))) other →
          other = position := by
  obtain ⟨position, statement, hstatement, hstops, hunique, -⟩ :=
    mapPart_stops_at_one_statement writesThenFails 0 (.ofContents [[65]]) (.ofContent [65]) rfl _ rfl
  refine ⟨rfl, rfl, rfl, position, statement, hstatement, ?_, hunique⟩
  obtain ⟨found, hfound, hline⟩ := hstops.line
  rw [hstatement] at hfound
  cases hfound
  rcases hline with ⟨cause, hcause⟩ | ⟨cause, hcause⟩
  · exact (RunError.query.inj hcause).1.symm
  · cases hcause

end Plan

end Remap
