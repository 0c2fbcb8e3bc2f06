import Remap.Run.Map
import Remap.Stream.Lines
import Remap.Text.Blank

/-!
The line runner.  Every line that is not blank is one message: it is mapped on its own and becomes
one line of output, unless it fails and the policy says otherwise.  What becomes of a line depends
on that line alone; the run only adds up and stops at the first line that it may not pass.
-/

namespace Remap

/-- What to do with a message that cannot be mapped. -/
inductive ErrorPolicy
  | fail
  | skip
  | passthrough
deriving Repr, DecidableEq

def ErrorPolicy.ofName? : String → Option ErrorPolicy
  | "fail" => some .fail
  | "skip" => some .skip
  | "passthrough" => some .passthrough
  | _ => none

def ErrorPolicy.name : ErrorPolicy → String
  | .fail => "fail"
  | .skip => "skip"
  | .passthrough => "passthrough"

structure Runner (ε : Type) where
  plan : Plan ε
  policy : ErrorPolicy
  /-- Write each message as an object of its content and its metadata. -/
  withMetadata : Bool

/-- How many messages were mapped, dropped and passed on as they were. -/
structure RunStats where
  mapped : Nat
  skipped : Nat
  passedThrough : Nat
deriving Repr, DecidableEq

/-- What becomes of one line. -/
inductive Fate
  | blank
  | mapped (output : List Char)
  | skipped (error : RunError)
  | passedThrough (output : List Char) (error : RunError)
  | refused (error : RunError)
  | notText (fault : Utf8.Fault)

/-- Why a run stopped. -/
inductive StreamError
  | message (line : Nat) (error : RunError)
  | notText (fault : Utf8.Fault)

/-- The texts from the error down to its innermost cause. -/
def StreamError.chain : StreamError → List String
  | .message line error => s!"failed to map message on input line {line}" :: error.chain
  | .notText fault => [fault.message]

/-- Why line `number` stops the run, if it does. -/
def Fate.stop? (number : Nat) : Fate → Option StreamError
  | .refused error => some (.message number error)
  | .notText fault => some (.notText fault)
  | _ => none

/-- A message that could not be mapped but did not stop the run. -/
structure Warning where
  line : Nat
  dropped : Bool
  error : RunError

def Warning.message (warning : Warning) : String :=
  let action := if warning.dropped then "skipping message" else "passing message through unchanged"
  s!"line {warning.line}: {action}: {warning.error.message}"

/-- A run so far or from some line on: its counters, output lines and warnings, and why it stopped
before the end of the input. -/
structure RunReport where
  stats : RunStats
  lines : List (List Char)
  warnings : List Warning
  failure : Option StreamError

namespace RunReport

def empty : RunReport :=
  ⟨⟨0, 0, 0⟩, [], [], none⟩

def stopped (error : StreamError) : RunReport :=
  { empty with failure := some error }

/-- The output, a line feed after each line. -/
def output (report : RunReport) : Bytes :=
  Utf8.encode (report.lines.flatMap (· ++ ['\n']))

end RunReport

namespace Runner

variable {ε : Type} [Language ε]

/-- Map the text of one message. -/
def mapText (runner : Runner ε) (text : List Char) : Except RunError Part :=
  match runner.plan.mapPart 0 (.ofContents [Utf8.encode text]) with
  | (.error error, _) => .error error
  | (.ok (), batch) => (batch.get 0).mapError .batch

/-- A part as one line of output, without the line feed. -/
def render (runner : Runner ε) (part : Part) : List Char :=
  if runner.withMetadata then
    Json.print (.object
      [("content", .string (String.ofList part.text)), ("metadata", part.metadata.toValue)])
  else part.text

/-- What becomes of the text of a line. -/
def fateOfText (runner : Runner ε) (text : List Char) : Fate :=
  if isBlankText text then .blank
  else
    match runner.mapText text with
    | .ok part => .mapped (runner.render part)
    | .error error =>
        match runner.policy with
        | .fail => .refused error
        | .skip => .skipped error
        | .passthrough => .passedThrough (runner.render (.ofContent (Utf8.encode text))) error

/-- What becomes of a line with its line feed. -/
def fate (runner : Runner ε) (line : Bytes) : Fate :=
  match Utf8.decode (dropLineEnd line) with
  | .error fault => .notText fault
  | .ok text => runner.fateOfText text

/-- Put what became of line `number` in front of a report of the lines after it. -/
def record (number : Nat) (fate : Fate) (later : RunReport) : RunReport :=
  match fate with
  | .blank | .refused _ | .notText _ => later
  | .mapped output =>
      { later with
        stats := { later.stats with mapped := later.stats.mapped + 1 }
        lines := output :: later.lines }
  | .skipped error =>
      { later with
        stats := { later.stats with skipped := later.stats.skipped + 1 }
        warnings := ⟨number, true, error⟩ :: later.warnings }
  | .passedThrough output error =>
      { later with
        stats := { later.stats with passedThrough := later.stats.passedThrough + 1 }
        lines := output :: later.lines
        warnings := ⟨number, false, error⟩ :: later.warnings }

/-- Run over lines of which the first has the given number; blank lines are counted too. -/
def runLines (runner : Runner ε) (number : Nat) : List Bytes → RunReport
  | [] => .empty
  | line :: rest =>
      let fate := runner.fate line
      match fate.stop? number with
      | some error => .stopped error
      | none => record number fate (runner.runLines (number + 1) rest)

/-- Run over an input. -/
def run (runner : Runner ε) (input : Bytes) : RunReport :=
  runner.runLines 1 (splitLines input)

end Runner

end Remap
