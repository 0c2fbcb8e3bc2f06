import Remap.Settings.Basic

/-!
Command line arguments.  Each level of the command line, before and after the subcommand, has its
own table of options; an option may be long or short, with its value in the same argument or the
next.
-/

namespace Remap.CommandLine

/-- The options; which of them stand where is said by `OptionTable`. -/
inductive Flag
  | config
  | mapping
  | input
  | withMetadata
  | timeoutMs
  | onError
  | help
  | version
deriving Repr, DecidableEq

namespace Flag

def long : Flag → String
  | .config => "config"
  | .mapping => "mapping"
  | .input => "input"
  | .withMetadata => "with-metadata"
  | .timeoutMs => "timeout-ms"
  | .onError => "on-error"
  | .help => "help"
  | .version => "version"

def short? : Flag → Option Char
  | .config => some 'c'
  | .mapping => some 'm'
  | .input => some 'i'
  | .help => some 'h'
  | .version => some 'V'
  | _ => none

def takesValue : Flag → Bool
  | .config | .mapping | .input | .timeoutMs | .onError => true
  | .withMetadata | .help | .version => false

end Flag

/-- The options of one level. -/
abbrev OptionTable := List Flag

def topLevel : OptionTable :=
  [.config, .help, .version]

def checkLevel : OptionTable :=
  [.config, .help]

def runLevel : OptionTable :=
  [.config, .mapping, .input, .withMetadata, .timeoutMs, .onError, .help]

/-- Why the arguments were rejected. -/
inductive UsageError
  | unexpected (argument : String)
  | unknownSubcommand (name : String)
  | missingSubcommand
  | missingValue (flag : Flag)
  | invalidValue (flag : Flag) (value : String)
  | needlessValue (flag : Flag)
  | repeated (flag : Flag)
  | missingMapping
  | emptyMapping
deriving Repr, DecidableEq

def UsageError.message : UsageError → String
  | .unexpected argument => s!"unexpected argument '{argument}' found"
  | .unknownSubcommand name => s!"unrecognized subcommand '{name}'"
  | .missingSubcommand => "a subcommand is required: check or run"
  | .missingValue flag => s!"a value is required for '--{flag.long}' but none was supplied"
  | .invalidValue flag value => s!"invalid value '{value}' for '--{flag.long}'"
  | .needlessValue flag => s!"no value is allowed for '--{flag.long}'"
  | .repeated flag => s!"the argument '--{flag.long}' cannot be used multiple times"
  | .missingMapping => "the mapping file path is required"
  | .emptyMapping => "the mapping file path is empty"

/-- An option as given, with its value or an empty text. -/
abbrev Given := Flag × String

/-- What one argument and perhaps the next were read as. -/
inductive Reading
  | options (given : List Given) (rest : List String)
  | word (text : String) (rest : List String)
  /-- Two dashes: only words follow. -/
  | terminator (rest : List String)
deriving Repr

/-- The value of an option in the next argument.  An argument that looks like an option is none. -/
def nextValue (flag : Flag) : List String → Except UsageError (String × List String)
  | [] => .error (.missingValue flag)
  | value :: rest =>
      match value.toList with
      | '-' :: _ :: _ => .error (.missingValue flag)
      | _ => .ok (value, rest)

/-- Read a long option without its dashes. -/
def readLong (table : OptionTable) (argument : String) (body : List Char) (rest : List String) :
    Except UsageError Reading :=
  let name := String.ofList (body.takeWhile (· ≠ '='))
  match table.find? (·.long = name), body.dropWhile (· ≠ '=') with
  | none, _ => .error (.unexpected argument)
  | some flag, '=' :: value =>
      if flag.takesValue then .ok (.options [(flag, String.ofList value)] rest)
      else .error (.needlessValue flag)
  | some flag, _ =>
      if flag.takesValue then do
        let (value, rest) ← nextValue flag rest
        return .options [(flag, value)] rest
      else .ok (.options [(flag, "")] rest)

/-- Read a cluster of short options without its dash. -/
def readShort (table : OptionTable) (argument : String) :
    List Char → List String → Except UsageError Reading
  | [], rest => .ok (.options [] rest)
  | c :: cluster, rest =>
      match table.find? (·.short? = some c) with
      | none => .error (.unexpected argument)
      | some flag =>
          if flag.takesValue then
            match cluster with
            | [] => do
                let (value, rest) ← nextValue flag rest
                return .options [(flag, value)] rest
            | '=' :: value => .ok (.options [(flag, String.ofList value)] rest)
            | value => .ok (.options [(flag, String.ofList value)] rest)
          else if flag = .help ∨ flag = .version then .ok (.options [(flag, "")] rest)
          else
            match readShort table argument cluster rest with
            | .ok (.options given rest) => .ok (.options ((flag, "") :: given) rest)
            | result => result

/-- Read the first of some arguments. -/
def readArgument (table : OptionTable) (argument : String) (rest : List String) :
    Except UsageError Reading :=
  match argument.toList with
  | ['-', '-'] => .ok (.terminator rest)
  | '-' :: '-' :: body => readLong table argument body rest
  | ['-'] => .ok (.word argument rest)
  | '-' :: cluster => readShort table argument cluster rest
  | _ => .ok (.word argument rest)

/-- Whether an option accepts its value; a path is any text but the empty one. -/
def acceptsValue (given : Given) : Bool :=
  match given.1 with
  | .config | .mapping | .input => given.2 ≠ ""
  | .timeoutMs => (word? given.2.toList).isSome
  | .onError => (ErrorPolicy.ofName? given.2).isSome
  | .withMetadata | .help | .version => true

/-- Add options to those given before, none of them twice. -/
def addOptions (before : List Given) : List Given → Except UsageError (List Given)
  | [] => .ok before
  | given :: rest =>
      if before.any (·.1 = given.1) then .error (.repeated given.1)
      else if acceptsValue given then addOptions (given :: before) rest
      else .error (.invalidValue given.1 given.2)

/-- What the arguments of one level come to: the options, then either a request for information or
the first word and the arguments after it. -/
inductive Level
  | help
  | version
  | done (options : List Given) (terminated : Bool)
  | word (options : List Given) (terminated : Bool) (text : String) (rest : List String)
deriving Repr

/-- Read options up to the first word; after two dashes every argument is a word.  At most `bound`
arguments are read. -/
def readLevelUpTo (table : OptionTable) :
    Nat → List Given → Bool → List String → Except UsageError Level
  | _, options, terminated, [] => .ok (.done options terminated)
  | 0, options, terminated, _ :: _ => .ok (.done options terminated)
  | _ + 1, options, true, word :: rest => .ok (.word options true word rest)
  | bound + 1, options, false, argument :: rest => do
      match ← readArgument table argument rest with
      | .word text rest => return .word options false text rest
      | .terminator rest => readLevelUpTo table bound options true rest
      | .options given rest =>
          if given.any (·.1 = .help) then return .help
          else if given.any (·.1 = .version) then return .version
          else readLevelUpTo table bound (← addOptions options given) false rest

/-- Read options up to the first word, given those before. -/
def readLevel (table : OptionTable) (options : List Given) (terminated : Bool)
    (arguments : List String) : Except UsageError Level :=
  readLevelUpTo table arguments.length options terminated arguments

/-- The options of a run; what is absent comes from the settings. -/
structure RunOptions where
  mapping : Option String
  input : Option String
  withMetadata : Bool
  timeoutMs : Option Nat
  onError : Option ErrorPolicy
deriving Repr, DecidableEq

inductive Command
  | check (mapping : String)
  | run (options : RunOptions)
deriving Repr, DecidableEq

/-- What the arguments ask for. -/
inductive Request
  | help
  | version
  | command (config : Option String) (command : Command)
deriving Repr, DecidableEq

/-- The value of an option. -/
def value? (flag : Flag) (options : List Given) : Option String :=
  options.lookup flag

def RunOptions.ofGiven (options : List Given) : RunOptions where
  mapping := value? .mapping options
  input := value? .input options
  withMetadata := (value? .withMetadata options).isSome
  timeoutMs := (value? .timeoutMs options).bind fun value => word? value.toList
  onError := (value? .onError options).bind ErrorPolicy.ofName?

/-- The configuration file named after the subcommand, or else before it. -/
def configOf (outer inner : List Given) : Option String :=
  (value? .config inner).or (value? .config outer)

/-- The arguments after `check`: exactly one word. -/
def readCheck (outer : List Given) (arguments : List String) : Except UsageError Request := do
  match ← readLevel checkLevel [] false arguments with
  | .help | .version => return .help
  | .done _ _ => throw .missingMapping
  | .word options terminated mapping rest =>
      if mapping = "" then throw .emptyMapping
      match ← readLevel checkLevel options terminated rest with
      | .help | .version => return .help
      | .done options _ => return .command (configOf outer options) (.check mapping)
      | .word _ _ extra _ => throw (.unexpected extra)

/-- The arguments after `run`: options only. -/
def readRun (outer : List Given) (arguments : List String) : Except UsageError Request := do
  match ← readLevel runLevel [] false arguments with
  | .help | .version => return .help
  | .done options _ => return .command (configOf outer options) (.run (.ofGiven options))
  | .word _ _ extra _ => throw (.unexpected extra)

/-- The arguments after `help`: nothing, or one subcommand to be told about. -/
def readHelp : List String → Except UsageError Request
  | [] | ["check"] | ["run"] | ["help"] => .ok .help
  | topic :: _ => .error (.unknownSubcommand topic)

/-- What some arguments ask for. -/
def Request.ofArguments (arguments : List String) : Except UsageError Request := do
  match ← readLevel topLevel [] false arguments with
  | .help => return .help
  | .version => return .version
  | .done _ _ => throw .missingSubcommand
  | .word _ true text _ => throw (.unknownSubcommand text)
  | .word options false "check" rest => readCheck options rest
  | .word options false "run" rest => readRun options rest
  | .word _ false "help" rest => readHelp rest
  | .word _ false text _ => throw (.unknownSubcommand text)

end Remap.CommandLine
