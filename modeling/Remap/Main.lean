import Remap.CommandLine.Execute

/-!
The program.  Everything is decided in `Remap.CommandLine`; here files are read and texts printed.
-/

open Remap CommandLine

/-- Read a file whole. -/
def readFileBytes (path : String) : IO (Except FileError Bytes) := do
  try
    return .ok (← IO.FS.readBinFile path).toList
  catch
    | .noFileOrDirectory .. => return .error .notFound
    | .inappropriateType _ code _ =>
        return .error (if code = 20 then .notDirectory else .isDirectory)
    | .invalidArgument _ 36 _ => return .error .nameTooLong
    | error => return .error (.other (toString error))

/-- Read a stream to its end. -/
partial def readAll (stream : IO.FS.Stream) (taken : ByteArray) : IO ByteArray := do
  let chunk ← stream.read 65536
  if chunk.isEmpty then return taken
  readAll stream (taken ++ chunk)

def printReport (report : CommandReport) : IO UInt32 := do
  let stdout ← IO.getStdout
  stdout.write ⟨report.output.toArray⟩
  stdout.flush
  for warning in report.warnings do
    IO.eprintln s!"WARN {warning.message}"
  if let some error := report.failure then
    IO.eprint error.report
  return UInt32.ofNat report.exitCode

def main (arguments : List String) : IO UInt32 := do
  match Request.ofArguments arguments with
  | .error error =>
      IO.eprintln s!"error: {error.message}"
      IO.eprint usageText
      return 2
  | .ok .help =>
      IO.print usageText
      return 0
  | .ok .version =>
      IO.print versionText
      return 0
  | .ok (.command config command) =>
      let stdin : IO Bytes := do return (← readAll (← IO.getStdin) .empty).toList
      printReport (← execute readFileBytes stdin config command)
