import Remap.Document.Access
import Remap.Message.Batch

/-!
Errors of a run.  A run error says at which statement it arose and carries the cause; where a map
was applied, the error of the map is the cause of the error of the expression that applied it.
-/

namespace Remap

/-- How deeply maps may apply one another. -/
def maxApplyDepth : Nat := 64

/-- Why a value could not be assigned. -/
inductive AssignError
  | notAnObject (found : String)
  | path (error : PathError)
deriving Repr, DecidableEq

def AssignError.message : AssignError → String
  | .notAnObject found =>
      s!"metadata assignment without a key requires an object value, found {found}"
  | .path error => error.message

mutual

/-- Why an expression has no value. -/
inductive QueryError
  | noDocument
  | undefinedVar (name : String)
  | undefinedMap (name : String)
  | thrown (message : String)
  | batch (error : BatchError)
  | recursionLimit (map : String)
  | apply (map : String) (cause : RunError)
  /-- A failure that still came with a value. -/
  | recoverable (recovered : Value) (cause : QueryError)

/-- Why a list of statements failed. -/
inductive RunError
  | query (line : Nat) (cause : QueryError)
  | assignment (line : Nat) (cause : AssignError)
  | batch (error : BatchError)
  | commit (error : BatchError)

end

mutual

def QueryError.message : QueryError → String
  | .noDocument => "unable to reference 'this': the message part is not a JSON document"
  | .undefinedVar name => s!"variable '{name}' is undefined"
  | .undefinedMap name => s!"map '{name}' is not defined"
  | .thrown message => message
  | .batch error => error.message
  | .recursionLimit map =>
      s!"map '{map}' exceeded the maximum apply depth of {maxApplyDepth}"
  | .apply map cause => s!"failed to apply map '{map}': {cause.message}"
  | .recoverable _ cause => cause.message

def RunError.message : RunError → String
  | .query line cause =>
      s!"failed to execute mapping assignment at line {line}: {cause.message}"
  | .assignment line cause =>
      s!"failed to assign mapping result at line {line}: {cause.message}"
  | .batch error => error.message
  | .commit error => s!"failed to set result of mapping: {error.message}"

end

mutual

/-- The texts from the error down to its innermost cause. -/
def QueryError.chain : QueryError → List String
  | .apply map cause => (QueryError.apply map cause).message :: cause.chain
  | .recoverable recovered cause => (QueryError.recoverable recovered cause).message :: cause.chain
  | error => [error.message]

/-- The texts from the error down to its innermost cause. -/
def RunError.chain : RunError → List String
  | .query line cause => (RunError.query line cause).message :: cause.chain
  | .assignment line cause => [(RunError.assignment line cause).message, cause.message]
  | .batch error => [error.message]
  | .commit error => [(RunError.commit error).message, error.message]

end

namespace RunError

/-- The line of the statement that failed. -/
def line? : RunError → Option Nat
  | .query line _ => some line
  | .assignment line _ => some line
  | .batch _ | .commit _ => none

/-- The value that a recoverable failure came with, at the outermost level only. -/
def recovered? : RunError → Option Value
  | .query _ (.recoverable recovered _) => some recovered
  | _ => none

end RunError

end Remap
