import Remap.Run.Eval

/-!
Running a plan.  `mapPart` maps one part of a batch and commits the document that the plan built;
`exec` and its variants run a plan inside a caller's context and commit nothing.
-/

namespace Remap.Plan

variable {ε : Type} [Language ε]

/-- Run the top-level statements with a caller's maps, input and state. -/
def exec (plan : Plan ε) (maps : Dictionary (List (Statement ε))) (input : Input) (state : State) :
    Outcome RunError (Option Value) :=
  run maps input plan.statements state

/-- Run one map of the plan with a caller's maps, input and state. -/
def execMap? (plan : Plan ε) (name : String) (maps : Dictionary (List (Statement ε)))
    (input : Input) (state : State) : Option (Outcome RunError (Option Value)) :=
  (plan.maps.get? name).map fun statements => run maps input statements state

/-- The document of a run: null if none was built, the recovered value of a recoverable failure, and
nothing for any other failure. -/
def bestEffort : Except RunError (Option Value) → Option Value
  | .ok output => some (output.getD .null)
  | .error error => error.recovered?

/-- The document of a run as text, empty if there is none. -/
def toText (plan : Plan ε) (maps : Dictionary (List (Statement ε))) (input : Input)
    (state : State) : String × State :=
  let (result, state) := plan.exec maps input state
  (((bestEffort result).map Value.toText).getD "", state)

/-- The document of a run as bytes, empty if there is none. -/
def toBytes (plan : Plan ε) (maps : Dictionary (List (Statement ε))) (input : Input)
    (state : State) : Bytes × State :=
  let (text, state) := plan.toText maps input state
  (Utf8.encode text.toList, state)

/-- Map one part of a batch.  The part need not hold a document; only reading one then fails.  The
batch comes back also when the run failed, with the metadata written until then. -/
def mapPart (plan : Plan ε) (index : Nat) (batch : Batch) : Except RunError Unit × Batch :=
  match batch.get index with
  | .error error => (.error (.batch error), batch)
  | .ok part =>
      match plan.exec plan.maps ⟨part.document?, index⟩ (.start batch) with
      | (.error error, state) => (.error error, state.batch)
      | (.ok none, state) => (.ok (), state.batch)
      | (.ok (some document), state) =>
          match state.batch.write index document with
          | .ok batch => (.ok (), batch)
          | .error error => (.error (.commit error), state.batch)

end Remap.Plan
