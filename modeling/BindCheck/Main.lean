import BindCheck.Program

/-!
# BindCheck.Main

The command line program. It reads the arguments, the environment and the source text, and
writes what the program comes to: findings and log lines to standard error, the version to
standard output.
-/

namespace BindCheck.Main

/-- The variable that sets the threshold of the log if no option does. -/
def logVariable : String := "RUST_LOG"

/-- Reads a file. -/
def readFile (path : String) : IO (Except CheckError String) := do
  try
    return decodeSource path (← IO.FS.readBinFile path)
  catch
    | .noFileOrDirectory .. => return .error (.missing path)
    | .permissionDenied .. => return .error (.forbidden path)
    | .inappropriateType .. => return .error (.directory path)
    | e => return .error (.unreadable path (toString e))

/-- Reads the source text. A terminal is no source. -/
def readSource : Source → IO (Except CheckError String)
  | .inline query => return .ok query
  | .file path => readFile path
  | .standardInput => do
    let input ← IO.getStdin
    if ← input.isTty then return .error .noInput
    return decodeSource "<stdin>" (← input.readBinToEnd)

/-- Says what the options are. -/
def usage : String :=
  "Usage: cyscope [--query <QUERY> | --file <FILE>] [--format text|json] [-v]... [-q]\n" ++
    "               [--log-format pretty|json] [-V] [-h]\n"

end BindCheck.Main

open BindCheck BindCheck.Main in
/-- Checks the query that the arguments name. -/
def main (arguments : List String) : IO UInt32 := do
  match Command.ofArguments arguments with
  | .error e =>
    IO.eprint s!"error: {e.message}\n\n{usage}"
    return Program.usageStatus.toUInt32
  | .ok .version =>
    IO.print Program.versionLine
    return 0
  | .ok .help =>
    IO.print usage
    return 0
  | .ok (.check o) =>
    let (entries, status) := Program.run o (← IO.getEnv logVariable) (← readSource o.source)
    for entry in entries do
      IO.eprint (Program.entryText o entry)
    return status.toUInt32
