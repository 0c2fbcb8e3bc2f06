import Remap.Document.InPlace
import Remap.Json.Printer
import Remap.Mapping.Program
import Remap.Run.Error

/-!
Assignment.  A value goes to one of three places: a variable, the metadata of the part or the output
document.  An assignment that fails has changed none of them.
-/

namespace Remap

abbrev Vars := Dictionary Value

/-- What a statement can write to; there is no output document until a path is assigned. -/
structure Places where
  vars : Vars
  metadata : Metadata
  output : Option Value
deriving DecidableEq

namespace Places

def empty : Places :=
  ⟨.empty, .empty, none⟩

/-- Set one metadata entry for each field of an object. -/
def mergeMetadata (metadata : Metadata) (fields : List (String × Value)) : Metadata :=
  fields.foldl (fun metadata field => metadata.insert field.1 field.2.toText) metadata

end Places

/-- Write a value to its target. -/
def Target.assign (target : Target) (value : Value) (places : Places) :
    Except AssignError Places :=
  match target with
  | .var name => .ok { places with vars := places.vars.insert name value }
  | .metadata (some key) =>
      .ok { places with metadata := places.metadata.insert key value.toText }
  | .metadata none =>
      match value with
      | .object fields =>
          .ok { places with metadata := Places.mergeMetadata places.metadata fields }
      | other => .error (.notAnObject other.typeName)
  | .path segments =>
      match (places.output.getD (.object [])).set segments value with
      | .ok output => .ok { places with output := some output }
      | .error error => .error (.path error)

/-- Write a value to its target in place, and the places as they are then.  For a path there is an
output document before the walk begins. -/
def Target.assignInPlace (target : Target) (value : Value) (places : Places) :
    Except AssignError Unit × Places :=
  match target with
  | .var name => (.ok (), { places with vars := places.vars.insert name value })
  | .metadata (some key) =>
      (.ok (), { places with metadata := places.metadata.insert key value.toText })
  | .metadata none =>
      match value with
      | .object fields =>
          (.ok (), { places with metadata := Places.mergeMetadata places.metadata fields })
      | other => (.error (.notAnObject other.typeName), places)
  | .path segments =>
      let (outcome, output) := (places.output.getD (.object [])).setInPlace segments value
      (outcome.mapError .path, { places with output := some output })

/-- Only an assignment that succeeds gives its places away. -/
theorem Target.assign_eq (target : Target) (value : Value) (places : Places) :
    target.assign value places =
      (target.assignInPlace value places).1.map fun _ => (target.assignInPlace value places).2 := by
  cases target with
  | var name => rfl
  | metadata key =>
      cases key with
      | some key => rfl
      | none => cases value <;> rfl
  | path segments =>
      simp only [assign, assignInPlace, Value.set_eq]
      cases ((places.output.getD (.object [])).setInPlace segments value).1 <;> rfl

end Remap
