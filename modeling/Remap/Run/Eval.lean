import Remap.Expression.Basic
import Remap.Run.Assign

/-!
Evaluation.  An expression reads the input document, which no statement changes, and a state that
statements write to: variables, the batch and the depth of nested maps.  The state comes back with
every outcome, since what was written before a failure stays written.

Applying a map runs statements, which evaluate expressions, which apply maps.  The loop is cut at
`apply`: `Expr.eval` is told what applying means, and `applyMap` has room for so many levels more.
-/

namespace Remap

variable {ε : Type}

/-- What an expression reads and never changes: the input document, if there is one, and the index
of the part that is mapped. -/
structure Input where
  document : Option Value
  index : Nat

/-- What a run changes. -/
structure State where
  vars : Vars
  batch : Batch
  depth : Nat
deriving DecidableEq

namespace State

/-- A fresh state over a batch. -/
def start (batch : Batch) : State :=
  ⟨.empty, batch, 0⟩

def enter (state : State) : State :=
  { state with depth := state.depth + 1 }

def leave (state : State) : State :=
  { state with depth := state.depth - 1 }

/-- How many levels of maps may still be entered. -/
def room (state : State) : Nat :=
  maxApplyDepth - state.depth

/-- Keep what an assignment wrote besides the output. -/
def keep (state : State) (index : Nat) (places : Places) : State :=
  { state with
    vars := places.vars
    batch := state.batch.setMetadata index places.metadata }

end State

/-- A result, good or bad, and the state that it leaves. -/
abbrev Outcome (error α : Type) := Except error α × State

/-- What applying a map means. -/
abbrev Apply := String → State → Outcome QueryError Value

namespace Expr

mutual

def eval (input : Input) (apply : Apply) : Expr → State → Outcome QueryError Value
  | .literal value, state => (.ok value, state)
  | .array items, state =>
      match evalItems input apply items state with
      | (.ok values, state) => (.ok (.array values), state)
      | (.error error, state) => (.error error, state)
  | .object fields, state =>
      match evalFields input apply fields state with
      | (.ok values, state) => (.ok (.object (Entries.ofList values)), state)
      | (.error error, state) => (.error error, state)
  | .document path, state =>
      match input.document with
      | none => (.error .noDocument, state)
      | some whole => (.ok ((whole.get? path).getD .null), state)
  | .var name, state =>
      match state.vars.get? name with
      | none => (.error (.undefinedVar name), state)
      | some value => (.ok value, state)
  | .metadata key, state =>
      match state.batch.get input.index with
      | .error error => (.error (.batch error), state)
      | .ok part =>
          match key with
          | none => (.ok part.metadata.toValue, state)
          | some key => (.ok ((part.metadata.get? key).elim .null .string), state)
  | .content, state =>
      match state.batch.get input.index with
      | .error error => (.error (.batch error), state)
      | .ok part => (.ok (.string (String.ofList part.text)), state)
  | .apply map, state => apply map state
  | .throw message, state => (.error (.thrown message), state)

/-- Evaluate from left to right, up to the first failure. -/
def evalItems (input : Input) (apply : Apply) :
    List Expr → State → Outcome QueryError (List Value)
  | [], state => (.ok [], state)
  | item :: rest, state =>
      match eval input apply item state with
      | (.error error, state) => (.error error, state)
      | (.ok value, state) =>
          match evalItems input apply rest state with
          | (.error error, state) => (.error error, state)
          | (.ok values, state) => (.ok (value :: values), state)

/-- Evaluate from left to right, up to the first failure. -/
def evalFields (input : Input) (apply : Apply) :
    List (String × Expr) → State → Outcome QueryError (List (String × Value))
  | [], state => (.ok [], state)
  | (key, field) :: rest, state =>
      match eval input apply field state with
      | (.error error, state) => (.error error, state)
      | (.ok value, state) =>
          match evalFields input apply rest state with
          | (.error error, state) => (.error error, state)
          | (.ok values, state) => (.ok ((key, value) :: values), state)

end

end Expr

/-- A language of expressions. -/
class Language (ε : Type) where
  eval : Input → Apply → ε → State → Outcome QueryError Value

instance : Language Expr where
  eval := Expr.eval

/-- Run statements in order, up to the first failure, on an output document begun before. -/
def runFrom (eval : ε → State → Outcome QueryError Value) (index : Nat) :
    Option Value → List (Statement ε) → State → Outcome RunError (Option Value)
  | output, [], state => (.ok output, state)
  | output, statement :: rest, state =>
      match eval statement.query state with
      | (.error error, state) => (.error (.query statement.line error), state)
      | (.ok value, state) =>
          match state.batch.get index with
          | .error error => (.error (.batch error), state)
          | .ok part =>
              match statement.target.assign value ⟨state.vars, part.metadata, output⟩ with
              | .error error => (.error (.assignment statement.line error), state)
              | .ok places => runFrom eval index places.output rest (state.keep index places)

/-- Apply a map that has room for so many levels, its own included.  A map that assigns no path has
the value null. -/
def applyMap [Language ε] (maps : Dictionary (List (Statement ε))) (input : Input) : Nat → Apply
  | 0, name, state =>
      match maps.get? name with
      | none => (.error (.undefinedMap name), state)
      | some _ => (.error (.recursionLimit name), state)
  | room + 1, name, state =>
      match maps.get? name with
      | none => (.error (.undefinedMap name), state)
      | some statements =>
          match runFrom (Language.eval input (applyMap maps input room)) input.index none statements
            state.enter with
          | (.ok output, state) => (.ok (output.getD .null), state.leave)
          | (.error error, state) => (.error (.apply name error), state.leave)

/-- Evaluate an expression. -/
def evaluate [Language ε] (maps : Dictionary (List (Statement ε))) (input : Input) (query : ε)
    (state : State) : Outcome QueryError Value :=
  Language.eval input (applyMap maps input state.room) query state

/-- Run statements on no output document; the answer is the one that they built, if any. -/
def run [Language ε] (maps : Dictionary (List (Statement ε))) (input : Input)
    (statements : List (Statement ε)) (state : State) : Outcome RunError (Option Value) :=
  runFrom (Language.eval input (applyMap maps input state.room)) input.index none statements state

end Remap
