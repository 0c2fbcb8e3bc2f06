import Remap.Proofs.References

/-!
The depth of applied maps.  However the maps of a table apply one another, evaluation ends: no map
is entered below the limit, and a failure at the limit has come through as many maps as the state
had room for, along references that are written in the table.
-/

namespace Remap

/-- A failure within so much room: it came through no more maps, and if the limit stopped it, it
came through exactly so many, along a chain of references up to the map that was refused. -/
structure FailsWithin (maps : Dictionary (List (Statement Expr))) (room : Nat)
    (start : List String) (root : RootCause) (layers : List String) : Prop where
  length_le : layers.length ≤ room
  limit (map : String) : root = .recursionLimit map →
    layers.length = room ∧ ReferenceChain maps start (layers ++ [map])

namespace FailsWithin

variable {maps : Dictionary (List (Statement Expr))} {room : Nat} {start more layers : List String}
  {root : RootCause}

theorem mono (h : FailsWithin maps room start root layers) (hmore : start ⊆ more) :
    FailsWithin maps room more root layers where
  length_le := h.length_le
  limit map hroot := by
    obtain ⟨hlength, hchain⟩ := h.limit map hroot
    exact ⟨hlength, hchain.mono hmore⟩

/-- A failure that came through no map and not from the limit. -/
theorem of_not_limit (h : ∀ map, root ≠ .recursionLimit map) :
    FailsWithin maps room start root [] where
  length_le := Nat.zero_le room
  limit map hroot := absurd hroot (h map)

/-- A map around a failure takes one more level. -/
theorem cons {map : String} {body : List (Statement Expr)} (hmap : maps.get? map = some body)
    (h : FailsWithin maps room (appliedIn body) root layers) :
    FailsWithin maps (room + 1) [map] root (map :: layers) where
  length_le := Nat.succ_le_succ h.length_le
  limit refused hroot := by
    obtain ⟨hlength, hchain⟩ := h.limit refused hroot
    refine ⟨?_, hchain.cons hmap⟩
    rw [List.length_cons, hlength]

end FailsWithin

section

variable {maps : Dictionary (List (Statement Expr))} {input : Input} {room : Nat}

/-- An expression fails within the room in which the maps fail that it applies. -/
theorem eval_failsWithin {apply : Apply}
    (happly : ∀ {map state error after}, apply map state = (.error error, after) →
      FailsWithin maps room [map] error.root error.layers)
    {expr : Expr} {state after : State} {error : QueryError}
    (h : Expr.eval input apply expr state = (.error error, after)) :
    FailsWithin maps room expr.applied error.root error.layers := by
  have always : Chained fun _ _ : State => True := ⟨fun _ => trivial, fun _ _ => trivial⟩
  obtain ⟨between, -, hfault⟩ := Expr.exists_fault always (fun _ _ => trivial) expr h
  cases hfault with
  | noDocument | undefinedVar | thrown | batch =>
      exact .of_not_limit (by simp [QueryError.root])
  | apply hmap hfails => exact (happly hfails).mono (by simpa using hmap)

/-- Statements fail within the room in which their expressions do. -/
theorem runFrom_failsWithin {eval : Expr → State → Outcome QueryError Value} {index : Nat}
    (heval : ∀ {expr state error after}, eval expr state = (.error error, after) →
      FailsWithin maps room expr.applied error.root error.layers)
    {output : Option Value} {statements : List (Statement Expr)} {state after : State}
    {error : RunError} (h : runFrom eval index output statements state = (.error error, after)) :
    FailsWithin maps room (appliedIn statements) error.root error.layers := by
  obtain ⟨before, statement, rest, values, reached, between, rfl, -, hfails⟩ :=
    runFrom_eq_error_iff.mp h
  cases hfails with
  | query hquery =>
      refine (heval hquery).mono fun name hname => ?_
      exact mem_appliedIn (List.mem_append_right before List.mem_cons_self) hname
  | batch _ _ => exact .of_not_limit (by simp [RunError.root])
  | @assignment _ _ cause _ _ _ _ =>
      refine .of_not_limit fun map => ?_
      cases cause <;> simp [RunError.root, AssignError.root]

/-- Applying a map fails within its room: by induction on the room, one level for each map. -/
theorem applyMap_failsWithin {name : String} {state after : State} {error : QueryError}
    (h : applyMap maps input room name state = (.error error, after)) :
    FailsWithin maps room [name] error.root error.layers := by
  induction room generalizing name state after error with
  | zero =>
      rw [applyMap] at h
      split at h <;> cases h
      · exact .of_not_limit (by simp [QueryError.root])
      · refine ⟨Nat.le_refl 0, fun map hroot => ⟨rfl, ?_⟩⟩
        cases hroot
        exact .singleton List.mem_cons_self
  | succ room ih =>
      rw [applyMap] at h
      split at h
      · cases h
        exact .of_not_limit (by simp [QueryError.root])
      · rename_i body hmap
        split at h <;> cases h
        rename_i cause left hrun
        have hfails : FailsWithin maps room (appliedIn body) cause.root cause.layers :=
          runFrom_failsWithin (fun heval => eval_failsWithin ih heval) hrun
        exact hfails.cons hmap

end

/-- Whatever the table of maps, evaluating an expression or running statements ends: it has one
outcome by derivation, which is the one that is computed.  The depth of the state is given back.  A
failure has come through no more maps than the depth had left, and a failure at the limit has come
through exactly so many, along a chain of references in the table that begins with a map that is
applied in what is evaluated. -/
theorem evaluation_bounded (maps : Dictionary (List (Statement Expr))) (input : Input)
    (state : State) :
    (∀ expr : Expr,
      (∀ result after, (∃ trace, expr.Evaluates maps input state trace result after) ↔
        evaluate maps input expr state = (result, after)) ∧
      (evaluate maps input expr state).2.depth = state.depth ∧
      ∀ error, (evaluate maps input expr state).1 = .error error →
        FailsWithin maps (maxApplyDepth - state.depth) expr.applied error.root error.layers) ∧
    (∀ statements : List (Statement Expr),
      (∀ result after, (∃ trace, Expr.Runs maps input none statements state trace result after) ↔
        run maps input statements state = (result, after)) ∧
      (run maps input statements state).2.depth = state.depth ∧
      ∀ error, (run maps input statements state).1 = .error error →
        FailsWithin maps (maxApplyDepth - state.depth) (appliedIn statements) error.root
          error.layers) := by
  have closed := depth_runClosed input.index
  refine ⟨fun expr => ⟨fun result after => Expr.exists_evaluates_iff, ?_, ?_⟩,
    fun statements => ⟨fun result after => Expr.exists_runs_iff, ?_, ?_⟩⟩
  · exact closed.evalQuery maps state.room expr state
  · intro error herror
    exact eval_failsWithin applyMap_failsWithin (Prod.ext herror rfl)
  · exact closed.run maps statements state
  · intro error herror
    exact runFrom_failsWithin (fun heval => eval_failsWithin applyMap_failsWithin heval)
      (Prod.ext herror rfl)

/-- Two maps that apply each other, the first one from inside an array. -/
def mutuallyApplying : Dictionary (List (Statement Expr)) :=
  .ofList [("ping", [⟨2, .metadata (some "seen"), .content⟩,
      ⟨3, .path ["a"], .array [.literal .null, .apply "pong"]⟩]),
    ("pong", [⟨6, .path ["b"], .apply "ping"⟩])]

theorem evaluation_bounded_of_mutuallyApplying :
    (evaluate mutuallyApplying ⟨none, 0⟩ (.apply "ping") ⟨.empty, .ofContents [[65]], 61⟩).1 =
      .error (.apply "ping" (.query 3 (.apply "pong" (.query 6 (.apply "ping" (.query 3
        (.recursionLimit "pong"))))))) ∧
    (evaluate mutuallyApplying ⟨none, 0⟩ (.apply "ping")
      ⟨.empty, .ofContents [[65]], 61⟩).2.depth = 61 ∧
    ReferenceChain mutuallyApplying ["ping"] ["ping", "pong", "ping", "pong"] := by
  obtain ⟨hexpr, -⟩ := evaluation_bounded mutuallyApplying ⟨none, 0⟩
    ⟨.empty, .ofContents [[65]], 61⟩
  obtain ⟨-, hdepth, hfails⟩ := hexpr (.apply "ping")
  obtain ⟨-, hchain⟩ := (hfails _ rfl).limit "pong" rfl
  exact ⟨rfl, hdepth, hchain⟩

end Remap
