import Remap.Stream.Runner
import Remap.Yaml.Mapping

/-!
Settings of a run.  Every field has a default; a field that is unknown, given twice or of the wrong
kind makes the whole text invalid.
-/

namespace Remap

structure Settings where
  mapping : Option String
  timeoutMs : Option Nat
  onError : ErrorPolicy
  withMetadata : Bool
deriving Repr, DecidableEq

/-- What is wrong with a settings text. -/
inductive SettingsError
  | unreadable
  | unknownField (name : String)
  | repeatedField (name : String)
  | wrongKind (name : String)
deriving Repr, DecidableEq

def SettingsError.message : SettingsError → String
  | .unreadable => "invalid config: expected a mapping from fields to scalars"
  | .unknownField name => s!"invalid config: unknown field '{name}'"
  | .repeatedField name => s!"invalid config: duplicate field '{name}'"
  | .wrongKind name => s!"invalid config: invalid value for field '{name}'"

namespace Settings

def default : Settings :=
  ⟨none, none, .fail, false⟩

/-- Set one field. -/
def assign (settings : Settings) (name : String) (value : Yaml.Scalar) :
    Except SettingsError Settings :=
  match name with
  | "mapping" =>
      .ok { settings with mapping := if value.isNull then none else some value.text }
  | "timeout_ms" =>
      if value.isNull then .ok { settings with timeoutMs := none }
      else
        match value.natural? with
        | some timeout => .ok { settings with timeoutMs := some timeout }
        | none => .error (.wrongKind name)
  | "on_error" =>
      match ErrorPolicy.ofName? value.text with
      | some policy => .ok { settings with onError := policy }
      | none => .error (.wrongKind name)
  | "with_metadata" =>
      match value.bool? with
      | some flag => .ok { settings with withMetadata := flag }
      | none => .error (.wrongKind name)
  | _ => .error (.unknownField name)

/-- Set the fields that a text names, each at most once. -/
def assignAll (settings : Settings) (seen : List String) :
    List Yaml.Entry → Except SettingsError Settings
  | [] => .ok settings
  | (name, value) :: rest =>
      if name ∈ seen then .error (.repeatedField name)
      else
        match settings.assign name value with
        | .ok settings => assignAll settings (name :: seen) rest
        | .error error => .error error

/-- The settings that a text writes. -/
def ofText (text : List Char) : Except SettingsError Settings :=
  match Yaml.entries? text with
  | some entries => assignAll default [] entries
  | none => .error .unreadable

end Settings

end Remap
