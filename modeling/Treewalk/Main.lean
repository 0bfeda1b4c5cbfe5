import Std.Time.DateTime.Timestamp
import Treewalk.CommandLine.Report
/-!
# The command line program

Carries out what the arguments ask for. Programs are run statement by statement, so that output
appears and time passes between statements.
-/

namespace Treewalk.CommandLine

/-- More fuel than any machine can burn. -/
def fuel : Nat := Nat.pow 2 62

/-- The seconds since the epoch. -/
def secondsNow : IO Float := do
  let now ← Std.Time.Timestamp.now
  return Float.ofInt now.toNanosecondsSinceUnixEpoch.val / 1000000000

/-- The bytes of a file. Of the two ways of being of the wrong type, the system numbers a directory
21. -/
def contentsOf (file : String) : IO (Except FileFault ByteArray) := do
  try
    return .ok (← IO.FS.readBinFile file)
  catch
    | .permissionDenied .. => return .error .denied
    | .inappropriateType _ code _ => return .error (if code = 21 then .directory else .notDirectory)
    | .invalidArgument .. => return .error .nameTooLong
    | _ => return .error .missing

/-- Writes a report and gives its exit code. -/
def deliver (r : Report) : IO UInt32 := do
  IO.print r.output
  (← IO.getStdout).flush
  IO.eprint r.errors
  return r.exitCode.toUInt32

/-- Runs statements in turn and writes what each prints. -/
def runStatements (s : Session) : List Stmt → IO (Outcome × Session)
  | [] => return (.ok, s)
  | stmt :: rest => do
    let now ← secondsNow
    let (result, s) := s.interpret (fun _ => now) fuel [stmt]
    let (output, s) := s.drain
    IO.print output
    (← IO.getStdout).flush
    match result with
    | .ok () => runStatements s rest
    | .error e => return (.ofResult (.error e), s)

/-- Runs a source as the next of a session and writes its errors. -/
def runSource (s : Session) (source : String) : IO (Outcome × Session) := do
  let (outcome, s) ← match s.accept source with
    | (.ok statements, s) => runStatements s statements
    | (.error errors, s) => pure (.rejected errors, s)
  IO.eprint outcome.errorText
  return (outcome, s)

/-- Runs the lines of the standard input until it ends. -/
partial def runLines (s : Session) : IO UInt32 := do
  IO.print Report.prompt
  (← IO.getStdout).flush
  let line ← (← IO.getStdin).getLine
  if line.isEmpty then
    IO.println ""
    return 0
  else
    runLines (← runSource s line).2

/-- Carries out a command that works on a source text. -/
def onFile (file : String) (action : String → IO UInt32) : IO UInt32 := do
  match sourceText (← contentsOf file) with
  | .ok source => action source
  | .error fault => deliver (Report.unreadable file fault)

def Command.carryOut : Command → IO UInt32
  | .tokenize file asJson => onFile file fun source => deliver (Report.tokenize asJson source)
  | .parse file => onFile file fun source => deliver (Report.parse source)
  | .run file => onFile file fun source => do
    return (← runSource (.initial .unlimited) source).1.exitCode.toUInt32
  | .repl => runLines (.initial .unlimited)

/-- Carries out a request. -/
def Request.carryOut (r : Request) : IO UInt32 := do
  if r.makesLog then
    IO.FS.writeFile "rox.log" ""
  match r with
  | .perform command _ => command.carryOut
  | .help => deliver Report.help
  | .version => deliver Report.version
  | .misuse => deliver Report.misuse

end Treewalk.CommandLine

def main (args : List String) : IO UInt32 :=
  (Treewalk.CommandLine.request args).carryOut
