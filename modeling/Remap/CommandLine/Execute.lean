import Remap.CommandLine.Arguments
import Remap.Mapping.Source

/-!
Carrying out a command.  Files are read through a function that the caller gives, in whatever monad
the reading takes place; all else is pure.
-/

namespace Remap.CommandLine

/-- Why a file could not be read. -/
inductive FileError
  | notFound
  | isDirectory
  | notDirectory
  | nameTooLong
  | nulInName
  | notText
  | other (message : String)
deriving Repr, DecidableEq

def FileError.message : FileError → String
  | .notFound => "No such file or directory (os error 2)"
  | .isDirectory => "Is a directory (os error 21)"
  | .notDirectory => "Not a directory (os error 20)"
  | .nameTooLong => "File name too long (os error 36)"
  | .nulInName => "file name contained an unexpected NUL byte"
  | .notText => "stream did not contain valid UTF-8"
  | .other message => message

/-- Why a command failed. -/
inductive CommandError
  | configFile (path : String) (error : FileError)
  | config (error : SettingsError)
  | noMapping
  | mappingFile (path : String) (error : FileError)
  | mapping (error : ParseError)
  | inputFile (path : String) (error : FileError)
  | input (error : FileError)
  | stream (error : StreamError)

namespace CommandError

/-- The texts from the error down to its innermost cause.  A configuration file that cannot be read
is named together with the reason, which is then also its cause. -/
def chain : CommandError → List String
  | .configFile path error =>
      [s!"failed to read config file '{path}': {error.message}", error.message]
  | .config error => [error.message]
  | .noMapping => ["no mapping given: pass --mapping or set \x60mapping\x60 in the config file"]
  | .mappingFile path error => [s!"failed to read mapping '{path}'", error.message]
  | .mapping error => error.chain
  | .inputFile path error => [s!"failed to open input '{path}'", error.message]
  | .input error => [error.message]
  | .stream error => error.chain

/-- The first line of a text as it is, further lines after an indentation. -/
def hang (indent : List Char) (text : String) : List Char :=
  text.toList.flatMap fun c => if c = '\n' then '\n' :: indent else [c]

/-- A number at the right end of five columns. -/
def inColumn (n : Nat) : List Char :=
  let digits := Nat.toDigits 10 n
  List.replicate (5 - digits.length) ' ' ++ digits

/-- The causes of an error, numbered if there is more than one. -/
def causeLines : List String → List (List Char)
  | [cause] => [List.replicate 4 ' ' ++ hang (List.replicate 4 ' ') cause]
  | causes =>
      causes.mapIdx fun n cause =>
        inColumn n ++ ':' :: ' ' :: hang (List.replicate 7 ' ') cause

/-- The error as it is told to the user. -/
def report (error : CommandError) : String :=
  match error.chain with
  | [] => "Error: \n"
  | [text] => "Error: " ++ text ++ "\n"
  | text :: causes =>
      let lines := (causeLines causes).flatMap (· ++ ['\n'])
      "Error: " ++ text ++ "\n\nCaused by:\n" ++ String.ofList lines

end CommandError

/-- What a command did: its output, the warnings it gave and how it ended. -/
structure CommandReport where
  output : Bytes
  warnings : List Warning
  failure : Option CommandError

namespace CommandReport

def printed (text : String) : CommandReport :=
  ⟨Utf8.encode text.toList, [], none⟩

def failed (error : CommandError) : CommandReport :=
  ⟨[], [], some error⟩

def ofRun (report : RunReport) : CommandReport where
  output := report.output
  warnings := report.warnings
  failure := report.failure.map .stream

def exitCode (report : CommandReport) : Nat :=
  if report.failure.isSome then 1 else 0

end CommandReport

/-- The version as it is printed. -/
def versionText : String :=
  "blobl 0.1.0\n"

/-- The forms of the command line. -/
def usageText : String :=
  "Usage: blobl [-c FILE] check MAPPING\n" ++
  "       blobl [-c FILE] run [-m FILE] [-i FILE] [--with-metadata] [--timeout-ms N]\n" ++
  "                           [--on-error fail|skip|passthrough]\n"

section Reading

variable {m : Type → Type} [Monad m]

/-- Read a file whose name need not be one that a file can have. -/
def readNamed (readFile : String → m (Except FileError Bytes)) (path : String) :
    m (Except FileError Bytes) :=
  if '\x00' ∈ path.toList then return .error .nulInName else readFile path

/-- Read a file as text. -/
def readText (readFile : String → m (Except FileError Bytes)) (path : String) :
    m (Except FileError (List Char)) := do
  match ← readNamed readFile path with
  | .error error => return .error error
  | .ok bytes =>
      match Utf8.decode? bytes with
      | some text => return .ok text
      | none => return .error .notText

/-- The settings in a configuration file; without one, the defaults. -/
def loadSettings (readFile : String → m (Except FileError Bytes)) :
    Option String → m (Except CommandError Settings)
  | none => return .ok .default
  | some path => do
      match ← readText readFile path with
      | .error error => return .error (.configFile path error)
      | .ok text => return (Settings.ofText text).mapError .config

/-- The plan in a mapping file. -/
def loadMapping (readFile : String → m (Except FileError Bytes)) (path : String) :
    m (Except CommandError (Plan Expr)) := do
  match ← readText readFile path with
  | .error error => return .error (.mappingFile path error)
  | .ok text => return (Plan.parse (some path) text).mapError .mapping

/-- The input of a run: a file, or what `stdin` yields. -/
def loadInput (readFile : String → m (Except FileError Bytes)) (stdin : m Bytes) :
    Option String → m (Except CommandError Bytes)
  | none => return .ok (← stdin)
  | some path => do
      match ← readNamed readFile path with
      | .ok bytes => return .ok bytes
      -- a directory can be opened but not read
      | .error .isDirectory => return .error (.input .isDirectory)
      | .error error => return .error (.inputFile path error)

/-- Parse a mapping and count what it holds. -/
def executeCheck (readFile : String → m (Except FileError Bytes)) (path : String) :
    m CommandReport := do
  match ← loadMapping readFile path with
  | .error error => return .failed error
  | .ok plan =>
      let statements := plan.statements.length
      let maps := plan.maps.size
      return .printed (s!"{path}: ok ({statements} statements, {maps} maps)" ++ "\n")

/-- Map the lines of the input.  An option goes before the settings. -/
def executeRun (readFile : String → m (Except FileError Bytes)) (stdin : m Bytes)
    (settings : Settings) (options : RunOptions) : m CommandReport := do
  match options.mapping.or settings.mapping with
  | none => return .failed .noMapping
  | some path =>
      match ← loadMapping readFile path with
      | .error error => return .failed error
      | .ok plan =>
          let runner : Runner Expr :=
            { plan
              policy := options.onError.getD settings.onError
              withMetadata := options.withMetadata || settings.withMetadata }
          match ← loadInput readFile stdin options.input with
          | .error error => return .failed error
          | .ok input => return .ofRun (runner.run input)

/-- Carry out a command; the settings are read before anything else. -/
def execute (readFile : String → m (Except FileError Bytes)) (stdin : m Bytes)
    (config : Option String) (command : Command) : m CommandReport := do
  match ← loadSettings readFile config with
  | .error error => return .failed error
  | .ok settings =>
      match command with
      | .check path => executeCheck readFile path
      | .run options => executeRun readFile stdin settings options

end Reading

end Remap.CommandLine
